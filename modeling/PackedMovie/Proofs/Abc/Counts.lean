import PackedMovie.Proofs.Abc.Shrinking

/-!
# No count makes more of a file than there is in it

A file says in front of each list how many entries follow. Each entry takes a byte of its own, so a
program has no more entries, in all its lists and with the bytes of its code, than the file has
bytes. A count for which there are not enough bytes left is an error wherever it stands.

Main statement: `Program.entries_le_length`.
-/
namespace PackedMovie.Abc

open PackedMovie.Reader (Takes bind_eq_ok_iff runOn_eq_ok_iff)

/-! ### Counts -/

/-- The entries of the lists and tables that a count stands in front of. -/
inductive IsEntry : {α : Type} → Reader α → Prop
  | int : IsEntry Reader.s32
  | number : IsEntry Reader.u30
  | double : IsEntry (PackedMovie.Reader.u64 : Reader UInt64)
  | string : IsEntry Reader.string
  | space : IsEntry Namespace.read
  | indices : IsEntry (Reader.counted Reader.u30)
  | name : IsEntry Multiname.read
  | signature : IsEntry Method.readSignature
  | optional : IsEntry OptionalValue.read
  | handler : IsEntry Handler.read
  | trait : IsEntry Trait.read
  | metadata : IsEntry Metadata.read
  | inst : IsEntry Instance.read
  | script : IsEntry Script.read

/-- A run of a reader that begins at the last cursor comes to a count at `c`, and the count says how
much is read behind it. -/
inductive CountsAt (c : Cursor) : {α : Type} → Reader α → Cursor → Prop
  /-- Of the entries of a list; also of the items of metadata, of which the keys come first, and of
  the classes, of which the instance halves do. -/
  | entries {α β : Type} {r : Reader β} (hr : IsEntry r) (next : UInt32 → List β → Reader α) :
    CountsAt c (do
      let count ← Reader.u30
      let members ← PackedMovie.Reader.times count.toNat r
      next count members) c
  /-- Of a table's entries, the implicit one among them; behind each table another count stands. -/
  | table {α β : Type} {r : Reader β} (hr : IsEntry r) (implicit : β)
    (next : List β → UInt32 → Reader α) :
    CountsAt c (do
      let table ← readTable implicit r
      let count ← Reader.u30
      next table count) c
  /-- Of the parameters of a method. -/
  | parameters : CountsAt c Method.readSignature c
  /-- Of the bytes of a string or of code. -/
  | bytes {α : Type} (next : Bytes → Reader α) :
    CountsAt c (do
      let count ← Reader.u30
      let raw ← PackedMovie.Reader.bytes count.toNat
      next raw) c
  /-- Of the body records. -/
  | bodies {α : Type} (methods : List Method) (next : List Method → Reader α) :
    CountsAt c (do
      let count ← Reader.u30
      let attached ← Program.readBodies count.toNat methods
      next attached) c
  | within {α β : Type} {r : Reader β} {next : β → Reader α} {d : Cursor} :
    CountsAt c r d → CountsAt c (r >>= next) d
  | behind {α β : Type} {r : Reader β} {next : β → Reader α} {d e : Cursor} {b : β} :
    r d = .ok b e → CountsAt c (next b) e → CountsAt c (r >>= next) d

theorem CountsAt.counted {β : Type} {r : Reader β} (hr : IsEntry r) (c : Cursor) :
    CountsAt c (Reader.counted r) c := by
  have h := CountsAt.entries (c := c) hr fun _ members => pure members
  simp only [bind_pure] at h
  exact h

/-! ### Too few bytes -/

/-- No entry is made of nothing. -/
theorem IsEntry.takes {β : Type} {r : Reader β} (h : IsEntry r) : Takes r fun _ n => 1 ≤ n := by
  have hpositive {γ : Type} {r : Reader γ} {write : γ → Bytes} {within : γ → Nat}
      (hr : Accounts r write within) : Takes r fun _ n => 1 ≤ n := hr.mono fun _ _ h => by omega
  cases h with
  | int => exact hpositive accounts_s32
  | number => exact hpositive accounts_u30
  | double => exact hpositive accounts_d64
  | string =>
    rw [string_eq]
    exact Takes.map (R := fun _ n => 1 ≤ n) (hpositive accounts_rawString)
  | space => exact hpositive Namespace.accounts
  | indices => exact hpositive accounts_indices
  | name => exact hpositive Multiname.accounts
  | signature => exact hpositive Method.accounts_signature
  | optional => exact hpositive OptionalValue.accounts
  | handler => exact hpositive Handler.accounts
  | trait => exact hpositive Trait.accounts
  | metadata => exact hpositive Metadata.accounts
  | inst => exact hpositive Instance.accounts
  | script => exact hpositive Script.accounts

theorem IsEntry.takes_times {β : Type} {r : Reader β} (h : IsEntry r) (count : Nat) :
    Takes (PackedMovie.Reader.times count r) fun _ n => count ≤ n := by
  have htimes := h.takes.times (R := fun as n => as.length ≤ n) (Nat.le_refl 0)
    (fun a as m n ha has => by rw [List.length_cons]; omega) count
  exact htimes.mono fun _ n hn => by omega

theorem takes_bodies_count (count : Nat) (methods : List Method) :
    Takes (Program.readBodies count methods) fun _ n => count ≤ n := by
  induction count generalizing methods with
  | zero => exact Takes.pure (Nat.le_refl 0)
  | succ count ih =>
    refine Body.accounts.bind fun record _ hrecord => ?_
    split
    · exact (ih _).mono fun _ _ h => by omega
    · exact Takes.throw _ _

/-- What takes a byte for each one that is counted has them all behind the count. -/
theorem le_length_of_takes {α β : Type} {r : UInt32 → Reader β} {next : UInt32 → β → Reader α}
    (hr : ∀ count, Takes (r count) fun _ n => count.toNat ≤ n) {c e f : Cursor} {count : UInt32}
    {a : α} (hcount : Reader.u30 c = .ok count e)
    (hrun : (do
      let count ← Reader.u30
      let b ← r count
      next count b) c = .ok a f) : count.toNat ≤ e.rest.length := by
  obtain ⟨_, _, hfirst, hrun⟩ := bind_eq_ok_iff.1 hrun
  obtain ⟨b, _, hb, -⟩ := bind_eq_ok_iff.1 hrun
  cases hcount.symm.trans hfirst
  have hlength := (hr count _ _ _ hb).length_le
  omega

/-- Where the reading succeeds, every count in it is covered by the bytes behind it. -/
theorem CountsAt.le_length {α : Type} {r : Reader α} {c d e f : Cursor} {count : UInt32} {a : α}
    (h : CountsAt c r d) (hcount : Reader.u30 c = .ok count e) (hrun : r d = .ok a f) :
    count.toNat ≤ e.rest.length := by
  induction h generalizing f with
  | entries hr next => exact le_length_of_takes (fun count => hr.takes_times count.toNat) hcount hrun
  | table hr implicit next =>
    obtain ⟨table, _, htable, hrun⟩ := bind_eq_ok_iff.1 hrun
    obtain ⟨behind, _, hbehind, -⟩ := bind_eq_ok_iff.1 hrun
    obtain ⟨_, _, hfirst, htable⟩ := bind_eq_ok_iff.1 htable
    obtain ⟨stored, _, hstored, hend⟩ := bind_eq_ok_iff.1 htable
    cases hcount.symm.trans hfirst
    cases hend
    have hlength := (hr.takes_times _ _ _ _ hstored).length_le
    have hleft := ((takes_u30 _ _ _ hbehind).mono fun _ h => h.2).length_le
    omega
  | parameters =>
    obtain ⟨_, _, hfirst, hrun⟩ := bind_eq_ok_iff.1 hrun
    obtain ⟨returnType, _, hreturn, hrun⟩ := bind_eq_ok_iff.1 hrun
    obtain ⟨types, _, htypes, -⟩ := bind_eq_ok_iff.1 hrun
    cases hcount.symm.trans hfirst
    have hleft := ((takes_u30 _ _ _ hreturn).mono fun _ h => h.2).length_le
    have hlength := (IsEntry.number.takes_times _ _ _ _ htypes).length_le
    omega
  | bytes next =>
    have htakes (count : UInt32) : Takes (PackedMovie.Reader.bytes count.toNat : Reader Bytes)
        fun _ n => count.toNat ≤ n := (Takes.bytes _).mono fun _ _ h => Nat.le_of_eq h.2.symm
    exact le_length_of_takes htakes hcount hrun
  | bodies methods next =>
    exact le_length_of_takes (fun count => takes_bodies_count count.toNat methods) hcount hrun
  | within _ ih =>
    obtain ⟨b, _, hb, -⟩ := bind_eq_ok_iff.1 hrun
    exact ih hb
  | behind hfirst _ ih =>
    obtain ⟨_, _, hb, hrun⟩ := bind_eq_ok_iff.1 hrun
    cases hfirst.symm.trans hb
    exact ih hrun

namespace Program

/-- A program has no more entries than its file has bytes, and its strings take at most three bytes
for each of them. A count larger than what is left behind it is an error. -/
theorem entries_le_length (bytes : Bytes) :
    (∀ p, parse bytes = .ok p → p.entries ≤ bytes.length ∧
      (p.constants.strings.flatMap Utf8.encode).length ≤ 3 * bytes.length) ∧
    ∀ (c d : Cursor) (count : UInt32), CountsAt c Program.read (.ofBytes bytes) →
      Reader.u30 c = .ok count d → d.rest.length < count.toNat → ∃ e, parse bytes = .error e := by
  constructor
  · intro p hp
    obtain ⟨d, hread⟩ := runOn_eq_ok_iff.1 hp
    obtain ⟨raws, e, -, -, used, hbytes, -, hsuffice⟩ := took_read hread
    have hlength : bytes.length = used.length + d.rest.length := by
      rw [← List.length_append, ← hbytes, Cursor.ofBytes]
    have hentries := hsuffice.entries
    have htexts := hsuffice.texts
    omega
  · intro c d count hcounts hcount hleft
    cases hparse : parse bytes with
    | ok p =>
      obtain ⟨e, hread⟩ := runOn_eq_ok_iff.1 hparse
      exact absurd (hcounts.le_length hcount hread) (Nat.not_le.2 hleft)
    | error e => exact ⟨e, rfl⟩

/-- A file that ends behind the count of the metadata of a trait in its only script. -/
def overstatedBytes : Bytes :=
  [0x10, 0x00, 0x2E, 0x00, 0x00, 0x00, 0x00, 0x00, 0x00, 0x00, 0x00,
    0x00, 0x00, 0x00, 0x01, 0x00, 0x01, 0x00, 0x41, 0x00, 0x00, 0x7F]

def overstatedAt (offset : Nat) : Cursor := ⟨offset, overstatedBytes.drop offset⟩

theorem entries_le_length_overstated :
    parse wastefulBytes = .ok wasteful ∧ wasteful.entries ≤ wastefulBytes.length ∧
      ∃ e, parse overstatedBytes = .error e := by
  have h : parse wastefulBytes = .ok wasteful := eq_ok_of_toOption (by decide +kernel)
  have htrait : CountsAt (overstatedAt 21) Trait.read (overstatedAt 17) :=
    .behind (e := overstatedAt 18) (b := 0) rfl <|
      .behind (e := overstatedAt 19) (b := 0x41) rfl <|
      .behind (e := overstatedAt 21) (b := .method 0 0) rfl <|
      .within <| .counted .number _
  have hscript : CountsAt (overstatedAt 21) Script.read (overstatedAt 15) :=
    .behind (e := overstatedAt 16) (b := 0) rfl <|
      .within <| .behind (e := overstatedAt 17) (b := 1) rfl <| .within htrait
  have hread : CountsAt (overstatedAt 21) Program.read (overstatedAt 0) :=
    .behind (e := overstatedAt 2) (b := 16) rfl <|
      .behind (e := overstatedAt 4) (b := 46) rfl <|
      .behind (e := overstatedAt 11) (b := .empty) rfl <|
      .behind (e := overstatedAt 12) (b := []) rfl <|
      .behind (e := overstatedAt 13) (b := []) rfl <|
      .behind (e := overstatedAt 14) (b := 0) rfl <|
      .behind (e := overstatedAt 14) (b := []) rfl <|
      .behind (e := overstatedAt 14) (b := []) rfl <|
      .within <| .behind (e := overstatedAt 15) (b := 1) rfl <| .within hscript
  refine ⟨h, ((entries_le_length wastefulBytes).1 wasteful h).1, ?_⟩
  exact (entries_le_length overstatedBytes).2 _ (overstatedAt 22) 0x7F hread rfl (by decide)

end Program

end PackedMovie.Abc
