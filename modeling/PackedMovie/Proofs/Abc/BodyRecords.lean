import Mathlib.Data.List.Basic
import PackedMovie.Proofs.Abc.RoundTrip
import PackedMovie.Proofs.History

/-!
# Body records in any order

A body record says itself which method it is for, so the order of a file's records does not matter
unless two of them are for one method; then the later one counts. The first record for a method that
is not there is an error, and so it is the only thing that can be wrong with records in the place of
a file's own.

Main statement: `Program.parse_writeWith`.
-/
namespace PackedMovie.Abc.Program

/-- The written form of a program with these records in the place of its bodies'. -/
def writeWith (p : Program) (records : List (UInt32 × Body)) : Bytes :=
  p.writeFront ++ Write.counted (fun record => Body.write record.1 record.2) records

/-- The method that a record is for is one of the first `count`. -/
def HasMethod (count : Nat) (record : UInt32 × Body) : Prop := record.1.toNat < count

instance (count : Nat) : DecidablePred (HasMethod count) := fun _ => Nat.decLt _ _

/-- The last record for the method at `index` holds this body. -/
def LastFor (records : List (UInt32 × Body)) (index : Nat) (body : Body) : Prop :=
  ∃ before method after, records = before ++ (method, body) :: after ∧ method.toNat = index ∧
    ∀ record ∈ after, record.1.toNat ≠ index

/-! ### Attaching without errors -/

/-- The methods with a record's body in the place of the one that its method has. -/
def supersede (methods : List Method) (record : UInt32 × Body) : List Method :=
  methods.modify record.1.toNat fun m => { m with body := some record.2 }

variable {methods : List Method} {records : List (UInt32 × Body)}

@[simp] theorem length_supersede (methods : List Method) (record : UInt32 × Body) :
    (supersede methods record).length = methods.length := List.length_modify ..

theorem length_foldl_supersede : (records.foldl supersede methods).length = methods.length := by
  induction records generalizing methods with
  | nil => rfl
  | cons record rest ih => rw [List.foldl_cons, ih, length_supersede]

theorem attach_eq_ok {record : UInt32 × Body} (h : HasMethod methods.length record) :
    attach methods record.1 record.2 = .ok (supersede methods record) := if_pos h

theorem attach_eq_error {record : UInt32 × Body} (h : ¬ HasMethod methods.length record) :
    attach methods record.1 record.2 =
      .error (.indexOutOfRange .methods record.1 methods.length) := if_neg h

theorem attachAll_eq_ok (h : ∀ record ∈ records, HasMethod methods.length record) :
    attachAll records methods = .ok (records.foldl supersede methods) := by
  induction records generalizing methods with
  | nil => rfl
  | cons record rest ih =>
    have hrest : ∀ r ∈ rest, HasMethod (supersede methods record).length r := by
      intro r hr
      rw [length_supersede]
      exact h r (List.mem_cons_of_mem record hr)
    rw [attachAll, List.foldlM_cons, attach_eq_ok (h record List.mem_cons_self)]
    exact ih hrest

/-- The first record for a method that is not there decides. -/
theorem attachAll_eq_error {before after : List (UInt32 × Body)} {bad : UInt32 × Body}
    (hbefore : ∀ record ∈ before, HasMethod methods.length record)
    (hbad : ¬ HasMethod methods.length bad) :
    attachAll (before ++ bad :: after) methods =
      .error (.indexOutOfRange .methods bad.1 methods.length) := by
  induction before generalizing methods with
  | nil =>
    rw [List.nil_append, attachAll, List.foldlM_cons, attach_eq_error hbad]
    rfl
  | cons record before ih =>
    have hkept := length_supersede methods record
    have hrest : ∀ r ∈ before, HasMethod (supersede methods record).length r := by
      intro r hr
      rw [hkept]
      exact hbefore r (List.mem_cons_of_mem record hr)
    rw [List.cons_append, attachAll, List.foldlM_cons,
      attach_eq_ok (hbefore record List.mem_cons_self), ← hkept]
    exact ih hrest (by rwa [hkept])

theorem exists_first_bad {count : Nat} (h : ¬ ∀ record ∈ records, HasMethod count record) :
    ∃ before bad after, records = before ++ bad :: after ∧
      (∀ record ∈ before, HasMethod count record) ∧ ¬ HasMethod count bad := by
  induction records with
  | nil => simp at h
  | cons record rest ih =>
    by_cases hrecord : HasMethod count record
    · obtain ⟨before, bad, after, rfl, hbefore, hbad⟩ := ih fun hrest =>
        h (List.forall_mem_cons.2 ⟨hrecord, hrest⟩)
      exact ⟨record :: before, bad, after, rfl, List.forall_mem_cons.2 ⟨hrecord, hbefore⟩, hbad⟩
    · exact ⟨[], record, rest, rfl, by simp, hrecord⟩

/-! ### The order of the records -/

/-- Where the methods of a list are, counted from `start`, a record leads to the body it holds. -/
theorem body_of_mem_bodies {start : Nat} (hfits : start + methods.length < UInt32.size)
    {record : UInt32 × Body} (h : record ∈ bodies start methods) :
    start ≤ record.1.toNat ∧ ∃ m, methods[record.1.toNat - start]? = some m ∧
      m.body = some record.2 := by
  induction methods generalizing start with
  | nil => cases h
  | cons m rest ih =>
    rw [List.length_cons] at hfits
    have hlater (h : record ∈ bodies (start + 1) rest) : start ≤ record.1.toNat ∧
        ∃ n, (m :: rest)[record.1.toNat - start]? = some n ∧ n.body = some record.2 := by
      obtain ⟨hle, n, hn, hbody⟩ := ih (by omega) h
      have hplace : record.1.toNat - start = record.1.toNat - (start + 1) + 1 := by omega
      exact ⟨by omega, n, by rwa [hplace, List.getElem?_cons_succ], hbody⟩
    rw [bodies] at h
    split at h
    · rename_i body hbody
      rcases List.mem_cons.1 h with rfl | h
      · have hindex : (UInt32.ofNat start).toNat = start := UInt32.toNat_ofNat_of_lt' (by omega)
        rw [hindex, Nat.sub_self]
        exact ⟨Nat.le_refl start, m, rfl, hbody⟩
      · exact hlater h
    · exact hlater h

/-- No two records of a written program are for one method. -/
theorem eq_of_mem_bodies (hfits : Fits methods) {record other : UInt32 × Body}
    (h : record ∈ bodies 0 methods) (h' : other ∈ bodies 0 methods)
    (heq : record.1.toNat = other.1.toNat) : record = other := by
  have hfits : 0 + methods.length < UInt32.size := by rwa [Nat.zero_add]
  obtain ⟨-, m, hm, hbody⟩ := body_of_mem_bodies hfits h
  obtain ⟨-, n, hn, hbody'⟩ := body_of_mem_bodies hfits h'
  rw [heq, hn] at hm
  cases hm
  rw [hbody] at hbody'
  exact Prod.ext (UInt32.toNat_inj.1 heq) (Option.some.inj hbody')

theorem supersede_comm {record other : UInt32 × Body}
    (h : record.1.toNat = other.1.toNat → record = other) (methods : List Method) :
    supersede (supersede methods record) other = supersede (supersede methods other) record := by
  by_cases heq : record.1.toNat = other.1.toNat
  · rw [h heq]
  · exact List.modify_modify_ne _ _ methods heq

/-- In whatever order the records of a program come, every method gets its own body. -/
theorem attachAll_of_perm (hfits : Fits methods) (hperm : records.Perm (bodies 0 methods)) :
    attachAll records (methods.map Method.withoutBody) = .ok methods := by
  have hthere : ∀ record ∈ bodies 0 methods,
      HasMethod (methods.map Method.withoutBody).length record := by
    intro record hrecord
    obtain ⟨-, m, hm, -⟩ := body_of_mem_bodies (by rwa [Nat.zero_add]) hrecord
    rw [HasMethod, List.length_map]
    exact (List.getElem?_eq_some_iff.1 hm).1
  have howner : attachAll (bodies 0 methods) (methods.map Method.withoutBody) = .ok methods :=
    attachAll_bodies [] methods (by simpa [Fits] using hfits)
  have hfold := hperm.symm.foldl_eq' (fun record hrecord other hother => supersede_comm
    (eq_of_mem_bodies hfits hrecord hother)) (methods.map Method.withoutBody)
  rw [attachAll_eq_ok hthere, hfold] at howner
  rwa [attachAll_eq_ok fun record hrecord => hthere record (hperm.mem_iff.1 hrecord)]

/-! ### The last record for a method -/

/-- The body that a record has for the method at `index`. -/
def bodyFor? (index : Nat) (record : UInt32 × Body) : Option Body :=
  if record.1.toNat = index then some record.2 else none

theorem getElem?_foldl_supersede (index : Nat) :
    (records.foldl supersede methods)[index]? = methods[index]?.map fun m =>
      { m with body := (records.reverse.findSome? (bodyFor? index)).or m.body } := by
  induction records generalizing methods with
  | nil => simp
  | cons record rest ih =>
    rw [List.foldl_cons, ih, supersede, List.getElem?_modify, List.reverse_cons,
      List.findSome?_append, List.findSome?_singleton, bodyFor?]
    cases methods[index]? with
    | none => rfl
    | some m =>
      by_cases hindex : record.1.toNat = index
      · simp only [hindex, ↓reduceIte, Option.map_eq_map, Option.map_some, Option.or_assoc,
          Option.some_or]
      · simp only [hindex, ↓reduceIte, Option.map_eq_map, Option.map_some, Option.or_none]

theorem lastFor_iff {index : Nat} {body : Body} :
    records.reverse.findSome? (bodyFor? index) = some body ↔ LastFor records index body := by
  have hsome {record : UInt32 × Body} :
      bodyFor? index record = some body ↔ record.1.toNat = index ∧ record.2 = body := by
    simp [bodyFor?]
  have hnone {record : UInt32 × Body} :
      bodyFor? index record = none ↔ record.1.toNat ≠ index := by
    simp [bodyFor?]
  rw [History.findSome?_reverse_eq_some_iff]
  constructor
  · rintro ⟨before, ⟨method, _⟩, after, hsplit, hrecord, hafter⟩
    obtain ⟨hindex, rfl⟩ := hsome.1 hrecord
    exact ⟨before, method, after, hsplit, hindex, fun r hr => hnone.1 (hafter r hr)⟩
  · rintro ⟨before, method, after, hsplit, hindex, hafter⟩
    exact ⟨before, (method, body), after, hsplit, hsome.2 ⟨hindex, rfl⟩,
      fun r hr => hnone.2 (hafter r hr)⟩

/-! ### Whole programs -/

theorem readBodies_error (hrecords : ∀ record ∈ records, record.2.WellFormed) {e : Error}
    (h : attachAll records methods = .error e) (offset : Nat) (rest : Bytes) :
    ∃ d, readBodies records.length methods
      ⟨offset, (records.flatMap fun record => record.2.write record.1) ++ rest⟩ = .error e d := by
  induction records generalizing methods offset with
  | nil => cases h
  | cons record records ih =>
    have hmore : ∀ r ∈ records, r.2.WellFormed :=
      fun r hr => hrecords r (List.mem_cons_of_mem record hr)
    have hrecord := Body.reads record.1 (hrecords record List.mem_cons_self)
    rw [attachAll, List.foldlM_cons] at h
    rw [List.flatMap_cons, List.length_cons, readBodies, List.append_assoc, hrecord.bind_eq]
    cases hattach : attach methods record.1 record.2 with
    | error e' =>
      rw [hattach] at h
      cases h
      exact ⟨_, rfl⟩
    | ok more =>
      rw [hattach] at h
      exact ih hmore h _

/-- What is read depends on the records only through what they leave of the methods. -/
theorem parse_writeWith_eq {p : Program} (hp : p.WellFormed) (hfits : Fits records)
    (hrecords : ∀ record ∈ records, record.2.WellFormed) :
    parse (p.writeWith records) = (fun methods => { p with methods }) <$>
      attachAll records (p.methods.map Method.withoutBody) := by
  have hcount : (UInt32.ofNat records.length).toNat = records.length := toNat_length hfits
  have hlead := (leads_front hp).trans ((reads_length records.length).leads _)
  rw [hcount] at hlead
  have hstart := hlead 0 (records.flatMap fun record => record.2.write record.1)
  rw [List.append_assoc] at hstart
  rw [parse, Reader.runOn, Cursor.ofBytes, writeWith, Write.counted, hstart]
  cases hattached : attachAll records (p.methods.map Method.withoutBody) with
  | ok methods =>
    have hread := (reads_bodies hrecords hattached).bind_pure (f := fun methods =>
      { p with methods }) (0 + (p.writeFront ++ Write.length records.length).length) []
    rw [List.append_nil] at hread
    rw [hread]
    rfl
  | error e =>
    obtain ⟨d, hd⟩ := readBodies_error hrecords hattached
      (0 + (p.writeFront ++ Write.length records.length).length) []
    rw [List.append_nil] at hd
    simp only [Bind.bind, EStateM.bind, hd]
    rfl

theorem parse_writeWith_of_perm {p : Program} (hp : p.WellFormed)
    (hperm : records.Perm (bodies 0 p.methods)) : parse (p.writeWith records) = .ok p := by
  have hfits : Fits records := by
    rw [Fits, hperm.length_eq]
    exact Nat.lt_of_le_of_lt (length_bodies_le 0 p.methods) hp.methods.fits
  have hrecords : ∀ record ∈ records, record.2.WellFormed := fun record hrecord =>
    wellFormed_bodies hp.methods.each record (hperm.mem_iff.1 hrecord)
  rw [parse_writeWith_eq hp hfits hrecords, attachAll_of_perm hp.methods.fits hperm]
  rfl

theorem map_withoutBody {methods : List Method} (h : ∀ m ∈ methods, m.body = none) :
    methods.map Method.withoutBody = methods := by
  have hkept : ∀ m ∈ methods, m.withoutBody = id m := by
    intro m hm
    rw [Method.withoutBody, ← h m hm]
    rfl
  rw [List.map_congr_left hkept, List.map_id]

/-- `q` differs from `p` in the bodies only, which are those of the last records for the methods. -/
structure TakesBodies (records : List (UInt32 × Body)) (p q : Program) : Prop where
  kept : ∃ methods, q = { p with methods }
  length : q.methods.length = p.methods.length
  methods : ∀ index m, p.methods[index]? = some m → ∃ body,
    q.methods[index]? = some { m with body } ∧ ∀ b, body = some b ↔ LastFor records index b

theorem takesBodies_foldl {p : Program} (h : ∀ m ∈ p.methods, m.body = none) :
    TakesBodies records p { p with methods := records.foldl supersede p.methods } where
  kept := ⟨_, rfl⟩
  length := length_foldl_supersede
  methods index m hm := by
    refine ⟨records.reverse.findSome? (bodyFor? index), ?_, fun b => lastFor_iff⟩
    rw [getElem?_foldl_supersede, hm, Option.map_some, h m (List.mem_of_getElem? hm),
      Option.or_none]

/-- A program is read from its records in any order. A program without bodies that is written with
any records is read unless one of them is for a method that is not there, and of these the first is
the error. What is read is the program with the body of the last record for each method. -/
theorem parse_writeWith :
    (∀ p : Program, p.WellFormed → ∀ records, records.Perm (bodies 0 p.methods) →
      parse (p.writeWith records) = .ok p) ∧
    ∀ p : Program, p.WellFormed → (∀ m ∈ p.methods, m.body = none) →
      ∀ records, Fits records → (∀ record ∈ records, record.2.WellFormed) →
        ((∃ q, parse (p.writeWith records) = .ok q) ↔
          ∀ record ∈ records, HasMethod p.methods.length record) ∧
        (∀ q, parse (p.writeWith records) = .ok q → TakesBodies records p q) ∧
        ∀ before bad after, records = before ++ bad :: after →
          (∀ record ∈ before, HasMethod p.methods.length record) → ¬ HasMethod p.methods.length bad →
            parse (p.writeWith records) =
              .error (.indexOutOfRange .methods bad.1 p.methods.length) := by
  refine ⟨fun p hp records hperm => parse_writeWith_of_perm hp hperm, ?_⟩
  intro p hp hbare records hfits hrecords
  have hparse := parse_writeWith_eq hp hfits hrecords
  rw [map_withoutBody hbare] at hparse
  have hok (h : ∀ record ∈ records, HasMethod p.methods.length record) :
      parse (p.writeWith records) = .ok { p with methods := records.foldl supersede p.methods } := by
    rw [hparse, attachAll_eq_ok h]
    rfl
  have hbad {before bad after} (hsplit : records = before ++ bad :: after)
      (hbefore : ∀ record ∈ before, HasMethod p.methods.length record)
      (hout : ¬ HasMethod p.methods.length bad) : parse (p.writeWith records) =
        .error (.indexOutOfRange .methods bad.1 p.methods.length) := by
    rw [hparse, hsplit, attachAll_eq_error hbefore hout]
    rfl
  have hthere {q} (hq : parse (p.writeWith records) = .ok q) :
      ∀ record ∈ records, HasMethod p.methods.length record := by
    by_contra hsome
    obtain ⟨before, bad, after, hsplit, hbefore, hout⟩ := exists_first_bad hsome
    rw [hbad hsplit hbefore hout] at hq
    cases hq
  refine ⟨⟨fun ⟨q, hq⟩ => hthere hq, fun h => ⟨_, hok h⟩⟩, fun q hq => ?_, fun _ _ _ => hbad⟩
  rw [hok (hthere hq)] at hq
  cases hq
  exact takesBodies_foldl hbare

/-- Two methods of one signature, each with a body. -/
def paired : Program := { embellished with methods := embellished.methods ++ embellished.methods }

/-- The same two methods without their bodies. -/
def bare : Program := { paired with methods := paired.methods.map Method.withoutBody }

/-- A body of the given stack and nothing in it. -/
def hollow (maxStack : UInt32) : Body := ⟨maxStack, 1, 0, 1, [], [], []⟩

/-- The second method gets two bodies, of which it keeps the later one. -/
theorem parse_writeWith_paired :
    (paired.WellFormed ∧ parse (paired.writeWith (bodies 0 paired.methods).reverse) = .ok paired) ∧
      (bare.WellFormed ∧ ∀ m ∈ bare.methods, m.body = none) ∧
      (∃ q m, parse (bare.writeWith [(1, hollow 2), (0, hollow 3), (1, hollow 4)]) = .ok q ∧
        q.methods[1]? = some m ∧ m.body = some (hollow 4)) ∧
      parse (bare.writeWith [(0, hollow 2), (2, hollow 3), (9, hollow 4)]) =
        .error (.indexOutOfRange .methods 2 2) := by
  have hpaired : paired.WellFormed := by decide +kernel
  have hbare : bare.WellFormed := by decide +kernel
  have hnone : ∀ m ∈ bare.methods, m.body = none := by decide +kernel
  have hread := parse_writeWith.2 bare hbare hnone [(1, hollow 2), (0, hollow 3), (1, hollow 4)]
    (by decide) (by decide)
  have hrefused := parse_writeWith.2 bare hbare hnone [(0, hollow 2), (2, hollow 3), (9, hollow 4)]
    (by decide) (by decide)
  obtain ⟨q, hq⟩ := hread.1.2 (by decide)
  obtain ⟨body, hmethod, hbody⟩ := (hread.2.1 q hq).methods 1 _ rfl
  have hlast : LastFor [(1, hollow 2), (0, hollow 3), (1, hollow 4)] 1 (hollow 4) :=
    ⟨[(1, hollow 2), (0, hollow 3)], 1, [], rfl, rfl, by simp⟩
  refine ⟨⟨hpaired, parse_writeWith.1 paired hpaired _ (List.reverse_perm _)⟩, ⟨hbare, hnone⟩,
    ⟨q, _, hq, hmethod, (hbody _).2 hlast⟩, ?_⟩
  exact hrefused.2.2 [(0, hollow 2)] (2, hollow 3) [(9, hollow 4)] rfl
    (by decide) (by decide)

end PackedMovie.Abc.Program
