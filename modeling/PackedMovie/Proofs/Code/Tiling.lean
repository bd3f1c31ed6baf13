import PackedMovie.Proofs.Abc.Relocation
import PackedMovie.Proofs.Code.Assembly

/-!
# Instructions as tiles of their code

Decoded instructions lie in the code one behind the other, each on a piece of its own from which
alone it is decoded as well. What is behind the last one is empty, or it is code that is refused at
its first instruction, with the fault that the whole code is refused with. So code can be cut between
two instructions: the part behind is decoded alone as it is decoded in its place.

Main statement: `items_tile`.
-/
namespace PackedMovie.Code

open PackedMovie.Abc (Error Relocates relocates_u8 relocates_u30 relocates_s24)
open PackedMovie.Reader (Reads bind_eq_error error_bind)

/-- The same instruction, `n` bytes further on. -/
def Instruction.ahead (n : Nat) (i : Instruction) : Instruction :=
  i.moveTo (UInt32.ofNat (n + i.address.toNat))

theorem Instruction.ahead_moveTo (n offset : Nat) (i : Instruction) :
    (i.moveTo (UInt32.ofNat offset)).ahead n = i.moveTo (UInt32.ofNat (n + offset)) := by
  have hsum : UInt32.ofNat (n + (UInt32.ofNat offset).toNat) = UInt32.ofNat (n + offset) := by
    rw [UInt32.ofNat_add, UInt32.ofNat_toNat, ← UInt32.ofNat_add]
  exact congrArg (i.moveTo ·) hsum

/-! ### One instruction -/

theorem OperandKind.relocates : ∀ kind : OperandKind, Relocates kind.read
  | .u8 => relocates_u8.map _
  | .u30 => relocates_u30
  | .s24 => relocates_s24.map _

theorem relocates_kinds (kinds : List OperandKind) : Relocates (kinds.mapM OperandKind.read) := by
  induction kinds with
  | nil => exact Relocates.pure []
  | cons kind kinds ih =>
    rw [List.mapM_cons]
    exact kind.relocates.bind fun _ => ih.bind fun _ => Relocates.pure _

theorem Layout.relocates : ∀ layout : Layout, Relocates layout.read
  | .fixed kinds => relocates_kinds kinds
  | .lookupSwitch => (OperandKind.relocates _).bind fun _ => (OperandKind.relocates _).bind fun _ =>
      ((OperandKind.relocates _).times _).bind fun _ => Relocates.pure _

theorem Instruction.read_cons (offset : Nat) (byte : UInt8) (rest : Bytes) :
    Instruction.read ⟨offset, byte :: rest⟩ = readAfter offset byte ⟨offset + 1, rest⟩ :=
  (Reads.u8 byte).bind_eq (f := readAfter offset) offset rest

theorem Instruction.read_unknown {byte : UInt8} (h : describe? byte = none) (offset : Nat)
    (rest : Bytes) : Instruction.read ⟨offset, byte :: rest⟩ =
      .error (.invalidOpcode byte offset) ⟨offset + 1, rest⟩ := by
  have hafter : readAfter offset byte = throw (.invalidOpcode byte offset) := by
    unfold readAfter
    rw [h]
  rw [read_cons, hafter]
  rfl

theorem Instruction.read_known {byte : UInt8} {name : String} {layout : Layout}
    (h : describe? byte = some (name, layout)) (offset : Nat) (rest : Bytes) :
    Instruction.read ⟨offset, byte :: rest⟩ =
      (layout.read >>= fun operands => pure ⟨UInt32.ofNat offset, .ofByte byte, operands⟩)
        ⟨offset + 1, rest⟩ := by
  have hafter : readAfter offset byte =
      layout.read >>= fun operands => pure ⟨UInt32.ofNat offset, .ofByte byte, operands⟩ := by
    unfold readAfter
    rw [h]
  rw [read_cons, hafter]

/-- The piece holds just this instruction, wherever it stands. -/
structure Holds (piece : Bytes) (i : Instruction) : Prop where
  ne_nil : piece ≠ []
  reads : ∀ offset rest, Instruction.read ⟨offset, piece ++ rest⟩ =
    .ok (i.moveTo (UInt32.ofNat offset)) ⟨offset + piece.length, rest⟩

theorem Instruction.read_ok {c d : Cursor} {i : Instruction} (h : Instruction.read c = .ok i d) :
    i.address = UInt32.ofNat c.offset ∧ ∃ piece, c.rest = piece ++ d.rest ∧ Holds piece i := by
  obtain ⟨offset, rest⟩ := c
  cases rest with
  | nil => cases h
  | cons byte rest =>
    cases hdescribe : describe? byte with
    | none =>
      rw [read_unknown hdescribe] at h
      cases h
    | some info =>
      obtain ⟨name, layout⟩ := info
      rw [read_known hdescribe] at h
      obtain ⟨operands, c', hoperands, h⟩ := Reader.bind_eq_ok_iff.1 h
      cases h
      obtain ⟨used, hused, hreads⟩ := layout.relocates.reads hoperands
      refine ⟨rfl, byte :: used, congrArg (byte :: ·) hused, by simp, fun offset' rest' => ?_⟩
      rw [List.cons_append, read_known hdescribe, hreads.bind_eq (offset' + 1) rest',
        List.length_cons, Nat.add_assoc, Nat.add_comm 1]
      rfl

/-- What is known of a fault: it would be the same elsewhere, and if it is an opcode's, then it is of
the byte at which the instruction begins, which is not in the instruction set. -/
structure Faults (c : Cursor) (e : Error) : Prop where
  moves : ∀ n, ∃ d, Instruction.read (c.ahead n) = .error (e.ahead n) d
  opcode : ∀ byte offset, e = .invalidOpcode byte offset →
    offset = c.offset ∧ c.rest.head? = some byte ∧ describe? byte = none

theorem Instruction.read_error {c d : Cursor} {e : Error} (h : Instruction.read c = .error e d) :
    Faults c e := by
  obtain ⟨offset, rest⟩ := c
  cases rest with
  | nil =>
    cases h
    exact ⟨fun n => ⟨_, rfl⟩, by simp⟩
  | cons byte rest =>
    cases hdescribe : describe? byte with
    | none =>
      rw [read_unknown hdescribe] at h
      cases h
      refine ⟨fun n => ⟨_, read_unknown hdescribe (n + offset) rest⟩, ?_⟩
      rintro _ _ ⟨⟩
      exact ⟨rfl, rfl, hdescribe⟩
    | some info =>
      obtain ⟨name, layout⟩ := info
      rw [read_known hdescribe] at h
      rcases bind_eq_error h with hoperands | ⟨_, _, -, hpure⟩
      · obtain ⟨hfault, hmoved⟩ := layout.relocates.faults hoperands
        refine ⟨fun n => (hmoved n).imp fun d' h' => ?_, ?_⟩
        · rw [Cursor.ahead, read_known hdescribe]
          exact error_bind h'
        · rintro _ _ rfl
          cases hfault
      · cases hpure

/-- An opcode that is refused stands where the instructions in front of it end. -/
theorem Faults.opcode_at {front rest : Bytes} {e : Error} (h : Faults ⟨front.length, rest⟩ e)
    {byte : UInt8} {offset : Nat} (hopcode : e = .invalidOpcode byte offset) :
    offset = front.length ∧ (front ++ rest)[offset]? = some byte ∧
      byte ∉ instructionSet.map Prod.fst := by
  obtain ⟨hoffset, hhead, hunknown⟩ := h.opcode byte offset hopcode
  refine ⟨hoffset, ?_, ?_⟩
  · rw [hoffset, List.getElem?_append_right (Nat.le_refl _), Nat.sub_self, ← List.head?_eq_getElem?]
    exact hhead
  · intro hlisted
    obtain ⟨entry, hentry, rfl⟩ := List.mem_map.1 hlisted
    exact absurd (List.lookup_eq_none_iff.1 hunknown entry hentry) (by simp)

/-- A fault at some place is that of the same bytes alone, as far ahead. -/
theorem Instruction.read_error_alone {n : Nat} {rest : Bytes} {f : Error} {d : Cursor}
    (h : Instruction.read ⟨n, rest⟩ = .error f d) :
    ∃ e d', Instruction.read ⟨0, rest⟩ = .error e d' ∧ f = e.ahead n := by
  cases halone : Instruction.read ⟨0, rest⟩ with
  | ok i c =>
    obtain ⟨-, piece, rfl, hpiece⟩ := read_ok halone
    rw [hpiece.reads n c.rest] at h
    cases h
  | error e c =>
    obtain ⟨c', hmoved⟩ := (read_error halone).moves n
    have hplace := h.symm.trans hmoved
    cases hplace
    exact ⟨e, c, rfl, rfl⟩

/-! ### Streams -/

/-- The outcome for bytes that stand `n` bytes further on, where `move` is how values move. -/
def outcomeAhead {α : Type} (n : Nat) (move : α → α) : Except Error α → Except Error α
  | .ok a => .ok (move a)
  | .error e => .error (e.ahead n)

namespace Stream

theorem items_nil (offset : Nat) : items ⟨⟨offset, []⟩, false⟩ = [] := by
  rw [items, drain]
  rfl

theorem items_of_next? {s t : Stream} {item : Except Error Instruction}
    (h : s.next? = some (item, t)) : s.items = item :: t.items := by
  rw [items, drain]
  split
  · rename_i hnone
    rw [h] at hnone
    cases hnone
  · rename_i hsome
    rw [h] at hsome
    cases hsome
    rfl

theorem items_failed (c : Cursor) : items ⟨c, true⟩ = [] := by
  rw [items, drain]
  rfl

theorem items_ok {piece : Bytes} {i : Instruction} (h : Holds piece i) (offset : Nat)
    (rest : Bytes) : items ⟨⟨offset, piece ++ rest⟩, false⟩ =
      .ok (i.moveTo (UInt32.ofNat offset)) :: items ⟨⟨offset + piece.length, rest⟩, false⟩ := by
  apply items_of_next?
  have hend : (piece ++ rest).isEmpty = false := by simp [h.ne_nil]
  simp [next?, Cursor.isAtEnd, hend, h.reads offset rest]

theorem items_error {c d : Cursor} {e : Error} (h : Instruction.read c = .error e d)
    (hne : c.rest ≠ []) : items ⟨c, false⟩ = [.error e] := by
  have hend : c.rest.isEmpty = false := by simp [hne]
  have hnext : next? ⟨c, false⟩ = some (.error e, ⟨d, true⟩) := by
    simp [next?, Cursor.isAtEnd, hend, h]
  rw [items_of_next? hnext, items_failed]

theorem items_eq_nil_iff {offset : Nat} {rest : Bytes} :
    items ⟨⟨offset, rest⟩, false⟩ = [] ↔ rest = [] := by
  constructor
  · intro h
    refine Decidable.byContradiction fun hne => ?_
    cases hread : Instruction.read ⟨offset, rest⟩ with
    | ok i d =>
      obtain ⟨-, piece, rfl, hpiece⟩ := Instruction.read_ok hread
      rw [items_ok hpiece] at h
      cases h
    | error e d =>
      rw [items_error hread hne] at h
      cases h
  · rintro rfl
    exact items_nil offset

/-- A stream that was drained gives nothing more. -/
theorem next?_drain (s : Stream) : s.drain.2.next? = none := by
  fun_induction drain s with
  | case1 s h => exact h
  | case2 s item t h rest ih => exact ih

theorem items_ahead (n : Nat) (c : Cursor) :
    items ⟨c.ahead n, false⟩ =
      (items ⟨c, false⟩).map (outcomeAhead n (Instruction.ahead n)) := by
  obtain ⟨offset, code⟩ := c
  -- By the length of the code, since each instruction takes its opcode byte at least.
  induction hlength : code.length using Nat.strongRecOn generalizing offset code with
  | ind length ih =>
    by_cases hne : code = []
    · rw [hne, Cursor.ahead, items_nil, items_nil, List.map_nil]
    cases hread : Instruction.read ⟨offset, code⟩ with
    | ok i d =>
      obtain ⟨-, piece, rfl, hpiece⟩ := Instruction.read_ok hread
      have hshort : d.rest.length < length := by
        rw [← hlength, List.length_append]
        exact Nat.lt_add_of_pos_left (List.length_pos_iff.2 hpiece.ne_nil)
      have hrest := ih d.rest.length hshort (offset + piece.length) d.rest rfl
      rw [Cursor.ahead, items_ok hpiece, items_ok hpiece, List.map_cons, ← hrest, Cursor.ahead,
        Nat.add_assoc, outcomeAhead, Instruction.ahead_moveTo]
    | error e d =>
      obtain ⟨d', hmoved⟩ := (Instruction.read_error hread).moves n
      rw [items_error hread hne, items_error hmoved hne]
      rfl

end Stream

/-! ### Whole bodies -/

theorem decode_of_items {code : Bytes} {items : List (Except Error Instruction)}
    (h : Stream.items ⟨⟨0, code⟩, false⟩ = items) : decode code = items.mapM id :=
  congrArg (List.mapM id) h

theorem mapM_outcomeAhead {α : Type} (n : Nat) (move : α → α) (items : List (Except Error α)) :
    (items.map (outcomeAhead n move)).mapM id =
      outcomeAhead n (List.map move) (items.mapM id) := by
  induction items with
  | nil => rfl
  | cons item items ih =>
    rw [List.map_cons, List.mapM_cons, List.mapM_cons, ih]
    cases item with
    | error e => rfl
    | ok a => cases items.mapM id <;> rfl

/-- The piece holds the instruction just if it is decoded as this instruction alone. -/
theorem holds_iff {piece : Bytes} {i : Instruction} :
    Holds piece i ↔ piece ≠ [] ∧ decode piece = .ok [i.moveTo 0] := by
  constructor
  · intro h
    have hitems := Stream.items_ok h 0 []
    rw [List.append_nil, Stream.items_nil] at hitems
    exact ⟨h.ne_nil, decode_of_items hitems⟩
  · rintro ⟨hne, hdecode⟩
    have hitems : Stream.items ⟨⟨0, piece⟩, false⟩ = [.ok (i.moveTo 0)] := mapM_eq_ok_iff.1 hdecode
    cases hread : Instruction.read ⟨0, piece⟩ with
    | error e d =>
      rw [Stream.items_error hread hne] at hitems
      cases hitems
    | ok i' d =>
      obtain ⟨-, front, rfl, hfront⟩ := Instruction.read_ok hread
      rw [Stream.items_ok hfront, List.cons.injEq, Except.ok.injEq] at hitems
      obtain ⟨hsame, hrest⟩ := hitems
      have hmove (offset : UInt32) : i'.moveTo offset = i.moveTo offset := by
        have h := congrArg (Instruction.moveTo offset) hsame
        exact h
      rw [Stream.items_eq_nil_iff.1 hrest, List.append_nil]
      exact ⟨hfront.ne_nil, fun offset rest => hmove _ ▸ hfront.reads offset rest⟩

/-- The instructions lie one behind the other from `offset` on. Each has a piece of the code, from
which alone it is decoded as well. -/
inductive Tiles : Nat → List Bytes → List Instruction → Prop
  | nil (offset : Nat) : Tiles offset [] []
  | cons {offset : Nat} {piece : Bytes} {pieces : List Bytes} {i : Instruction}
      {is : List Instruction} : piece ≠ [] → i.address.toNat = offset →
      decode piece = .ok [i.moveTo 0] → Tiles (offset + piece.length) pieces is →
      Tiles offset (piece :: pieces) (i :: is)

theorem exists_tiles (offset : Nat) (code : Bytes) (hbound : offset + code.length < UInt32.size) :
    ∃ pieces rest is, code = pieces.flatten ++ rest ∧ Tiles offset pieces is ∧
      (rest ≠ [] → ∃ e d, Instruction.read ⟨offset + pieces.flatten.length, rest⟩ = .error e d) := by
  induction hlength : code.length using Nat.strongRecOn generalizing offset code with
  | ind length ih =>
    by_cases hne : code = []
    · exact ⟨[], [], [], hne, .nil offset, fun h => absurd rfl h⟩
    cases hread : Instruction.read ⟨offset, code⟩ with
    | error e d => exact ⟨[], code, [], rfl, .nil offset, fun _ => ⟨e, d, hread⟩⟩
    | ok i d =>
      obtain ⟨haddress, piece, rfl, hpiece⟩ := Instruction.read_ok hread
      obtain ⟨hne, hdecode⟩ := holds_iff.1 hpiece
      have hpos := List.length_pos_iff.2 hne
      rw [List.length_append] at hbound hlength
      obtain ⟨pieces, rest, is, hcode, htiles, hfault⟩ :=
        ih d.rest.length (by omega) (offset + piece.length) d.rest (by omega) rfl
      refine ⟨piece :: pieces, rest, i :: is, ?_, .cons hne ?_ hdecode htiles, ?_⟩
      · rw [List.flatten_cons, List.append_assoc, ← hcode]
      · have hoffset : offset < UInt32.size := by omega
        rw [haddress]
        exact UInt32.toNat_ofNat_of_lt' hoffset
      · rwa [List.flatten_cons, List.length_append, ← Nat.add_assoc]

theorem Tiles.items_append {offset : Nat} {pieces : List Bytes} {is : List Instruction}
    (h : Tiles offset pieces is) (rest : Bytes) :
    Stream.items ⟨⟨offset, pieces.flatten ++ rest⟩, false⟩ =
      is.map .ok ++ Stream.items ⟨⟨offset + pieces.flatten.length, rest⟩, false⟩ := by
  induction h with
  | nil offset => rfl
  | @cons offset piece pieces i is hne haddress hdecode _ ih =>
    have hplace : i.moveTo (UInt32.ofNat offset) = i := by
      rw [← haddress, UInt32.ofNat_toNat]
      rfl
    rw [List.flatten_cons, List.append_assoc, Stream.items_ok (holds_iff.2 ⟨hne, hdecode⟩), ih,
      hplace, List.length_append, Nat.add_assoc]
    rfl

theorem Tiles.address_lt {offset : Nat} {pieces : List Bytes} {is : List Instruction}
    (h : Tiles offset pieces is) : ∀ i ∈ is, i.address.toNat < offset + pieces.flatten.length := by
  induction h with
  | nil offset => simp
  | @cons offset piece pieces i is hne haddress _ _ ih =>
    have hpos := List.length_pos_iff.2 hne
    rw [List.flatten_cons, List.length_append]
    intro j hj
    rcases List.mem_cons.1 hj with rfl | hj
    · omega
    · have hlater := ih j hj
      omega

/-- Code without a fault is tiled by its instructions. -/
theorem tiles_of_decode {code : Bytes} {is : List Instruction} (hlength : code.length < UInt32.size)
    (h : decode code = .ok is) : ∃ pieces, code = pieces.flatten ∧ Tiles 0 pieces is := by
  obtain ⟨pieces, rest, is', rfl, htiles, hfault⟩ := exists_tiles 0 code (by omega)
  have hitems := (htiles.items_append rest).symm.trans (mapM_eq_ok_iff.1 h)
  by_cases hrest : rest = []
  · rw [hrest, Stream.items_nil, List.append_nil] at hitems
    have hsame : is' = is := Except.ok.inj ((mapM_ok is').symm.trans (mapM_eq_ok_iff.2 hitems))
    exact ⟨pieces, by rw [hrest, List.append_nil], hsame ▸ htiles⟩
  · obtain ⟨e, d, hread⟩ := hfault hrest
    have herror : Except.error e ∈ is.map (Except.ok (ε := Error)) := by
      rw [← hitems, Stream.items_error hread hrest]
      exact List.mem_append_right _ List.mem_cons_self
    simp at herror

theorem decode_append {front : Bytes} {is : List Instruction} (hlength : front.length < UInt32.size)
    (h : decode front = .ok is) (back : Bytes) :
    decode (front ++ back) = (is ++ ·) <$>
      outcomeAhead front.length (List.map (Instruction.ahead front.length))
        (decode back) := by
  obtain ⟨pieces, rfl, htiles⟩ := tiles_of_decode hlength h
  rw [decode_of_items (htiles.items_append back), mapM_ok_append, Nat.zero_add]
  have hback := Stream.items_ahead pieces.flatten.length ⟨0, back⟩
  rw [Cursor.ahead, Nat.add_zero] at hback
  rw [hback, mapM_outcomeAhead]
  rfl

/-- How decoding ends when `rest` of the code is left behind the instructions. -/
inductive Ends (code : Bytes) : Bytes → List Instruction → Prop
  | clean {is : List Instruction} : (Stream.ofBytes code).items = is.map .ok →
      decode code = .ok is → Ends code [] is
  | fault {rest : Bytes} {is : List Instruction} {e f : Error} : rest ≠ [] →
      decode rest = .error e → f = e.ahead (code.length - rest.length) →
      (Stream.ofBytes code).items = is.map .ok ++ [.error f] → decode code = .error f →
      (∀ byte offset, f = .invalidOpcode byte offset →
        offset = code.length - rest.length ∧ code[offset]? = some byte ∧
          byte ∉ instructionSet.map Prod.fst) →
      Ends code rest is

theorem Tiles.ends {pieces : List Bytes} {rest : Bytes} {is : List Instruction}
    (h : Tiles 0 pieces is)
    (hfault : rest ≠ [] → ∃ e d, Instruction.read ⟨pieces.flatten.length, rest⟩ = .error e d) :
    Ends (pieces.flatten ++ rest) rest is := by
  have hitems := h.items_append rest
  rw [Nat.zero_add] at hitems
  by_cases hrest : rest = []
  · rw [hrest, Stream.items_nil, List.append_nil, List.append_nil] at hitems
    rw [hrest, List.append_nil]
    exact .clean hitems (mapM_eq_ok_iff.2 hitems)
  · obtain ⟨f, d, hread⟩ := hfault hrest
    obtain ⟨e, d', halone, hmoved⟩ := Instruction.read_error_alone hread
    have hplace : (pieces.flatten ++ rest).length - rest.length = pieces.flatten.length := by
      rw [List.length_append, Nat.add_sub_cancel]
    rw [Stream.items_error hread hrest] at hitems
    refine .fault (e := e) (f := f) hrest ?_ ?_ hitems ?_ fun byte offset hopcode => ?_
    · rw [decode_of_items (Stream.items_error halone hrest)]
      rfl
    · rw [hplace, hmoved]
    · rw [decode_of_items hitems, mapM_ok_append]
      rfl
    · rw [hplace]
      exact (Instruction.read_error hread).opcode_at hopcode

/-- The items of a code are instructions that tile the front of it and, if anything is left behind
them, one fault, which is that of the bytes left. After them the stream gives nothing more. If code is
decoded without a fault, then more code behind it changes nothing of what is decoded, and is decoded
itself as it is alone, only further on. -/
theorem items_tile {code : Bytes} (hlength : code.length < UInt32.size) :
    (∃ pieces rest is, code = pieces.flatten ++ rest ∧ Tiles 0 pieces is ∧ Ends code rest is) ∧
      (Stream.ofBytes code).drain.2.next? = none ∧
      ∀ front back is, code = front ++ back → decode front = .ok is →
        (∀ js, decode back = .ok js →
          decode code = .ok (is ++ js.map (Instruction.ahead front.length)) ∧
            ∀ j ∈ js, (j.ahead front.length).address.toNat = front.length + j.address.toNat) ∧
        ∀ e, decode back = .error e → decode code = .error (e.ahead front.length) := by
  refine ⟨?_, Stream.next?_drain _, ?_⟩
  · obtain ⟨pieces, rest, is, rfl, htiles, hfault⟩ := exists_tiles 0 code (by omega)
    rw [Nat.zero_add] at hfault
    exact ⟨pieces, rest, is, rfl, htiles, htiles.ends hfault⟩
  · rintro front back is rfl hfront
    rw [List.length_append] at hlength
    have happend := decode_append (by omega) hfront back
    refine ⟨fun js hback => ?_, fun e hback => ?_⟩
    · rw [hback] at happend
      obtain ⟨pieces, rfl, htiles⟩ := tiles_of_decode (by omega) hback
      refine ⟨happend, fun j hj => UInt32.toNat_ofNat_of_lt' ?_⟩
      have haddress := htiles.address_lt j hj
      omega
    · rw [hback] at happend
      exact happend

/-- A call, the name of which begins at the second byte and has no last group. -/
def endlessCall : Bytes := [0x46, 0x80, 0x80, 0x80, 0x80, 0x80, 0x00]

theorem items_tile_endlessCall :
    (assemble [.getLocal0, .callProperty 300 1] ++ endlessCall).length < UInt32.size ∧
      (∃ pieces rest is, assemble [.getLocal0, .callProperty 300 1] ++ endlessCall =
        pieces.flatten ++ rest ∧ Tiles 0 pieces is ∧
          Ends (assemble [.getLocal0, .callProperty 300 1] ++ endlessCall) rest is) ∧
      decode (assemble [.getLocal0, .callProperty 300 1] ++ endlessCall) =
        .error (.invalidInteger 6) := by
  have hlength :
      (assemble [.getLocal0, .callProperty 300 1] ++ endlessCall).length < UInt32.size := by
    decide +kernel
  have hfront : decode (assemble [.getLocal0, .callProperty 300 1]) =
      .ok (located 0 [.getLocal0, .callProperty 300 1]) := decode_assemble (by decide)
  have hback : decode endlessCall = .error (.invalidInteger 1) :=
    decode_of_items (Stream.items_error (c := ⟨0, endlessCall⟩) rfl (by decide))
  have hsix : (assemble [.getLocal0, .callProperty 300 1]).length = 5 := by decide +kernel
  obtain ⟨htiles, -, happend⟩ := items_tile hlength
  have hcode := (happend _ _ _ rfl hfront).2 _ hback
  rw [hsix] at hcode
  exact ⟨hlength, htiles, hcode⟩

end PackedMovie.Code
