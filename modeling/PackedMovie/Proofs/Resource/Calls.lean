import PackedMovie.Code.Assembler
import PackedMovie.Proofs.History
import PackedMovie.Resource.Unpacking

/-!
# Calls of an unpacker

Whatever an unpacker is asked, and whatever comes of it, its keymap, its accessors and its order
belong together: they are what the last successful resolution found under the options that were in
force then. A resolution that fails changes nothing, and nothing is written behind it.

Main statement: `Unpacker.consistent_after`.
-/
namespace PackedMovie.Resource

open PackedMovie.Abc (Method Program)
open PackedMovie.History
open PackedMovie.Swf (Movie)

/-! ### What a resolution finds -/

theorem bind_eq_ok_iff {ε α β : Type} {x : Except ε α} {f : α → Except ε β} {b : β} :
    (x >>= f) = .ok b ↔ ∃ a, x = .ok a ∧ f a = .ok b := by
  cases x with
  | error e => simp [bind, Except.bind]
  | ok a => simp [bind, Except.bind]

theorem bind_eq_error_iff {ε α β : Type} {x : Except ε α} {f : α → Except ε β} {e : ε} :
    (x >>= f) = .error e ↔ x = .error e ∨ ∃ a, x = .ok a ∧ f a = .error e := by
  cases x with
  | error e' => simp [bind, Except.bind]
  | ok a => simp [bind, Except.bind]

/-- Behind a step that succeeded, only the next one can fail. -/
theorem eq_error_of_bind {ε α β : Type} {x : Except ε α} {f : α → Except ε β} {a : α} {e : ε}
    (hx : x = .ok a) (h : (x >>= f) = .error e) : f a = .error e := by
  rw [hx] at h
  exact h

theorem ofAbc_eq_ok_iff {α : Type} {x : Except Abc.Error α} {a : α} :
    ofAbc x = .ok a ↔ x = .ok a := by
  cases x <;> simp [ofAbc]

theorem ofAbc_eq_error_iff {α : Type} {x : Except Abc.Error α} {e : Error} :
    ofAbc x = .error e ↔ ∃ cause, x = .error cause ∧ e = .abc cause := by
  cases x with
  | error cause => simp [ofAbc, eq_comm]
  | ok a => simp [ofAbc]

namespace Resolution

/-- The keymap is that of the class's static initializer, the accessors are the class's methods read
with this keymap, and the order is that of the constructor read with these accessors. -/
def IsFound (o : Options) (p : Program) (r : Resolution) : Prop :=
  ∃ inst static cinit iinit, p.classAt o.classIndex = .ok (inst, static) ∧
    instructionsOf p static.cinit = .ok cinit ∧
    Keymap.extract cinit p.constants.strings = .ok r.keymap ∧
    (o.strict = true → r.keymap.isEmpty = false) ∧
    Accessors.build inst.traits p.methods r.keymap = .ok r.accessors ∧
    instructionsOf p inst.iinit = .ok iinit ∧
    Order.resolve ⟨Utf8.encode o.target, o.strict, r.accessors⟩ iinit = .ok r.order

theorem resolve_eq_ok_iff {o : Options} {p : Program} {r : Resolution} :
    resolve o p = .ok r ↔ IsFound o p r := by
  unfold resolve
  constructor
  · intro h
    obtain ⟨⟨inst, static⟩, hclass, h⟩ := bind_eq_ok_iff.1 h
    obtain ⟨cinit, hcinit, h⟩ := bind_eq_ok_iff.1 h
    obtain ⟨keymap, hkeymap, h⟩ := bind_eq_ok_iff.1 h
    simp only at h
    split at h
    · cases h
    · rename_i hstrict
      obtain ⟨accessors, haccessors, h⟩ := bind_eq_ok_iff.1 h
      obtain ⟨iinit, hiinit, h⟩ := bind_eq_ok_iff.1 h
      obtain ⟨order, horder, h⟩ := bind_eq_ok_iff.1 h
      cases h
      exact ⟨inst, static, cinit, iinit, ofAbc_eq_ok_iff.1 hclass, hcinit, hkeymap,
        fun h => by simpa [h] using hstrict, haccessors, hiinit, horder⟩
  · rintro ⟨inst, static, cinit, iinit, hclass, hcinit, hkeymap, hstrict, haccessors, hiinit, horder⟩
    have hpresent : ¬ (r.keymap.isEmpty && o.strict) = true := by
      cases ho : o.strict with
      | true => simp [hstrict ho]
      | false => simp
    refine bind_eq_ok_iff.2 ⟨(inst, static), ofAbc_eq_ok_iff.2 hclass, ?_⟩
    refine bind_eq_ok_iff.2 ⟨cinit, hcinit, bind_eq_ok_iff.2 ⟨r.keymap, hkeymap, ?_⟩⟩
    simp only
    rw [if_neg hpresent]
    exact bind_eq_ok_iff.2 ⟨r.accessors, haccessors, bind_eq_ok_iff.2 ⟨iinit, hiinit,
      bind_eq_ok_iff.2 ⟨r.order, horder, rfl⟩⟩⟩

end Resolution

namespace Unpacker

/-! ### One call -/

/-- What an unpacker can be asked. Each writing has a sink of its own. -/
inductive Call where
  | withOptions (o : Options)
  | resolveOrder
  | resolveBinaries
  | writeBinaries (sink : Sink)
  | unpack (sink : Sink)
  deriving DecidableEq, Repr

namespace Call

def options? : Call → Option Options
  | .withOptions o => some o
  | _ => none

def resolvesOrder : Call → Bool
  | .resolveOrder | .unpack _ => true
  | _ => false

end Call

/-- The unpacker behind a call, whatever the outcome. Writing leaves it as it is. -/
def after (u : Unpacker) : Call → Unpacker
  | .withOptions o => u.withOptions o
  | .resolveOrder => u.resolveOrder.2
  | .resolveBinaries => u.resolveBinaries
  | .writeBinaries _ => u
  | .unpack sink => (u.unpack sink).2

/-- Either everything is found and replaced, or nothing changes. -/
theorem resolveOrder_cases (u : Unpacker) :
    (∃ r, Resolution.IsFound u.options u.frame.program r ∧
      u.resolveOrder = (.ok r.order, { u with resolution := r })) ∨
    ∃ e, (¬ ∃ r, Resolution.IsFound u.options u.frame.program r) ∧ u.resolveOrder = (.error e, u) := by
  cases h : Resolution.resolve u.options u.frame.program with
  | ok r => exact .inl ⟨r, Resolution.resolve_eq_ok_iff.1 h, by rw [resolveOrder, h]⟩
  | error e =>
    refine .inr ⟨e, ?_, by rw [resolveOrder, h]⟩
    rintro ⟨r, hr⟩
    rw [Resolution.resolve_eq_ok_iff.2 hr] at h
    cases h

theorem resolveOrder_eq_ok_iff (u : Unpacker) {r : Resolution} :
    u.resolveOrder = (.ok r.order, { u with resolution := r }) ↔
      Resolution.IsFound u.options u.frame.program r := by
  constructor
  · intro h
    rcases u.resolveOrder_cases with ⟨r', hr', h'⟩ | ⟨e, -, h'⟩
    · rw [h'] at h
      have hsame : r' = r := congrArg (fun answer => answer.2.resolution) h
      exact hsame ▸ hr'
    · rw [h'] at h
      cases congrArg Prod.fst h
  · intro h
    rw [resolveOrder, Resolution.resolve_eq_ok_iff.2 h]

/-- An order that was found is the one that is held. -/
theorem resolveOrder_of_ok {u : Unpacker} {order : Order} (h : u.resolveOrder.1 = .ok order) :
    ∃ r, r.order = order ∧ u.resolveOrder = (.ok order, { u with resolution := r }) := by
  rcases u.resolveOrder_cases with ⟨r, -, hfound⟩ | ⟨e, -, hfailed⟩
  · rw [hfound] at h
    cases h
    exact ⟨r, rfl, hfound⟩
  · rw [hfailed] at h
    cases h

theorem resolveOrder_of_error {u : Unpacker} {e : Error} (h : u.resolveOrder.1 = .error e) :
    u.resolveOrder = (.error e, u) := by
  rcases u.resolveOrder_cases with ⟨r, -, h'⟩ | ⟨e', -, h'⟩
  · rw [h'] at h
    cases h
  · rw [h'] at h ⊢
    cases h
    rfl

theorem unpack_of_ok {u v : Unpacker} {order : Order} (h : u.resolveOrder = (.ok order, v))
    (sink : Sink) : (u.unpack sink).2 = v.resolveBinaries := by
  rw [unpack, h]

theorem unpack_of_error {u v : Unpacker} {e : Error} (h : u.resolveOrder = (.error e, v))
    (sink : Sink) : u.unpack sink = ((.error e, sink), v) := by
  rw [unpack, h]

/-- All that a call can do. -/
inductive Transition (u : Unpacker) : Call → Unpacker → Prop
  | options (o : Options) : Transition u (.withOptions o) { u with options := o }
  | found {r : Resolution} (h : Resolution.IsFound u.options u.frame.program r) :
    Transition u .resolveOrder { u with resolution := r }
  | notFound (h : ¬ ∃ r, Resolution.IsFound u.options u.frame.program r) :
    Transition u .resolveOrder u
  | binaries : Transition u .resolveBinaries { u with binaries := payloads u.movie }
  | written (sink : Sink) : Transition u (.writeBinaries sink) u
  | unpacked (sink : Sink) {r : Resolution}
    (h : Resolution.IsFound u.options u.frame.program r) :
    Transition u (.unpack sink) { u with resolution := r, binaries := payloads u.movie }
  | notUnpacked (sink : Sink) (h : ¬ ∃ r, Resolution.IsFound u.options u.frame.program r) :
    Transition u (.unpack sink) u

theorem transition_after (u : Unpacker) (c : Call) : Transition u c (u.after c) := by
  cases c with
  | withOptions o => exact .options o
  | resolveBinaries => exact .binaries
  | writeBinaries sink => exact .written sink
  | resolveOrder =>
    rcases u.resolveOrder_cases with ⟨r, hr, h⟩ | ⟨e, hnone, h⟩
    · rw [after, h]
      exact .found hr
    · rw [after, h]
      exact .notFound hnone
  | unpack sink =>
    rcases u.resolveOrder_cases with ⟨r, hr, h⟩ | ⟨e, hnone, h⟩
    · rw [after, unpack_of_ok h]
      exact .unpacked sink hr
    · rw [after, unpack_of_error h]
      exact .notUnpacked sink hnone

section

variable {u v : Unpacker} {c : Call}

theorem Transition.movie (h : Transition u c v) : v.movie = u.movie := by cases h <;> rfl

theorem Transition.frame (h : Transition u c v) : v.frame = u.frame := by cases h <;> rfl

theorem Transition.options_eq (h : Transition u c v) :
    v.options = c.options?.getD u.options := by cases h <;> rfl

/-- The call resolves the order and finds `r` with the options `o`. -/
def Call.Finds (o : Options) (p : Program) (c : Call) (r : Resolution) : Prop :=
  c.resolvesOrder = true ∧ Resolution.IsFound o p r

theorem Transition.resolution (h : Transition u c v) :
    c.Finds u.options u.frame.program v.resolution ∨
      (¬ ∃ r, c.Finds u.options u.frame.program r) ∧ v.resolution = u.resolution := by
  cases h with
  | found h => exact .inl ⟨rfl, h⟩
  | unpacked sink h => exact .inl ⟨rfl, h⟩
  | notFound h => exact .inr ⟨fun ⟨r, hr⟩ => h ⟨r, hr.2⟩, rfl⟩
  | notUnpacked sink h => exact .inr ⟨fun ⟨r, hr⟩ => h ⟨r, hr.2⟩, rfl⟩
  | _ => exact .inr ⟨fun ⟨r, hr⟩ => Bool.false_ne_true hr.1, rfl⟩

/-- The call indexes the payloads: it is made for that, or it unpacks and finds the order. -/
def Call.Indexes (o : Options) (p : Program) (c : Call) : Prop :=
  c = .resolveBinaries ∨ ∃ sink r, c = .unpack sink ∧ c.Finds o p r

theorem Transition.binaries_eq (h : Transition u c v) :
    c.Indexes u.options u.frame.program ∧ v.binaries = payloads u.movie ∨
      ¬ c.Indexes u.options u.frame.program ∧ v.binaries = u.binaries := by
  cases h with
  | binaries => exact .inl ⟨.inl rfl, rfl⟩
  | unpacked sink h => exact .inl ⟨.inr ⟨sink, _, rfl, rfl, h⟩, rfl⟩
  | notUnpacked sink h =>
    refine .inr ⟨?_, rfl⟩
    rintro (hc | ⟨_, r, -, -, hr⟩)
    · cases hc
    · exact h ⟨r, hr⟩
  | _ =>
    refine .inr ⟨?_, rfl⟩
    rintro (hc | ⟨_, _, hc, -⟩)
    · cases hc
    · cases hc

end

/-! ### Any number of calls -/

/-- The options in force behind some calls. -/
def optionsIn (calls : List Call) : Options :=
  (calls.reverse.findSome? Call.options?).getD .standard

/-- The calls made so far decide under which options the next one looks for an order. -/
def Finds (p : Program) (before : List Call) (c : Call) (r : Resolution) : Prop :=
  c.Finds (optionsIn before) p r

def Indexes (p : Program) (before : List Call) (c : Call) : Prop := c.Indexes (optionsIn before) p

section

variable {m : Movie} {u : Unpacker} (h : Unpacker.new m = .ok u)
include h

theorem new_fields : u.movie = m ∧ u.options = .standard ∧ u.resolution = .empty ∧
    u.binaries = .empty := by
  unfold Unpacker.new at h
  split at h
  · cases h
  · cases h
    exact ⟨rfl, rfl, rfl, rfl⟩

theorem fields_calls (calls : List Call) :
    (calls.foldl after u).movie = m ∧ (calls.foldl after u).frame = u.frame ∧
      (calls.foldl after u).options = optionsIn calls := by
  obtain ⟨hmovie, hoptions, -, -⟩ := new_fields h
  refine ⟨?_, ?_, ?_⟩
  · exact (foldl_kept (fun u c => (transition_after u c).movie) u calls).trans hmovie
  · exact foldl_kept (fun u c => (transition_after u c).frame) u calls
  · have hlatest := foldl_latest_getD (fun u c => (transition_after u c).options_eq) u calls
    rwa [hoptions] at hlatest

theorem resolution_calls (calls : List Call) :
    let v := calls.foldl after u
    (v.resolution = .empty ∧
        ¬ Happened (fun before c => ∃ r, Finds u.frame.program before c r) calls) ∨
      LastHappened (Finds u.frame.program) calls v.resolution := by
  obtain ⟨-, -, hempty, -⟩ := new_fields h
  intro v
  rw [← hempty]
  refine foldl_last_or_initial (f := Unpacker.resolution) (fun before c => ?_) calls
  obtain ⟨-, hframe, hoptions⟩ := fields_calls h before
  have hstep := (transition_after (before.foldl after u) c).resolution
  rwa [hframe, hoptions] at hstep

theorem binaries_calls (calls : List Call) :
    let v := calls.foldl after u
    (v.binaries = .empty ∧ ¬ Happened (Indexes u.frame.program) calls) ∨
      v.binaries = payloads m ∧ Happened (Indexes u.frame.program) calls := by
  obtain ⟨-, -, -, hempty⟩ := new_fields h
  intro v
  have hstep : ∀ before c, let w := after (before.foldl after u) c
      (Indexes u.frame.program before c ∧ w.binaries = payloads m) ∨
        (¬ ∃ b, Indexes u.frame.program before c ∧ b = payloads m) ∧
          w.binaries = (before.foldl after u).binaries := by
    intro before c
    obtain ⟨hmovie, hframe, hoptions⟩ := fields_calls h before
    have hcall := (transition_after (before.foldl after u) c).binaries_eq
    rw [hmovie, hframe, hoptions] at hcall
    rcases hcall with hindexed | ⟨hnone, hkept⟩
    · exact .inl hindexed
    · exact .inr ⟨fun ⟨_, hindexed, _⟩ => hnone hindexed, hkept⟩
  rcases foldl_last_or_initial (f := Unpacker.binaries)
    (P := fun before c b => Indexes u.frame.program before c ∧ b = payloads m) hstep calls with
    ⟨hinitial, hnever⟩ | ⟨before, c, rest, hcalls, ⟨hindexed, hpayloads⟩, -⟩
  · refine .inl ⟨hinitial.trans hempty, ?_⟩
    rintro ⟨before, c, rest, hcalls, hindexed⟩
    exact hnever ⟨before, c, rest, hcalls, _, hindexed, rfl⟩
  · exact .inr ⟨hpayloads, before, c, rest, hcalls, hindexed⟩

/-- Keymap, accessors and order are always those of one resolution, the last that was successful, and
the binaries are those of the movie. A resolution that fails leaves all of it as it was, and then
unpacking writes nothing. -/
theorem consistent_after (calls : List Call) :
    let v := calls.foldl after u
    v.movie = m ∧ v.frame = u.frame ∧ v.options = optionsIn calls ∧
      ((v.resolution = .empty ∧
          ¬ Happened (fun before c => ∃ r, Finds u.frame.program before c r) calls) ∨
        LastHappened (Finds u.frame.program) calls v.resolution) ∧
      ((v.binaries = .empty ∧ ¬ Happened (Indexes u.frame.program) calls) ∨
        v.binaries = payloads m ∧ Happened (Indexes u.frame.program) calls) ∧
      (∀ r, v.resolveOrder = (.ok r.order, { v with resolution := r }) ↔
        Resolution.IsFound v.options v.frame.program r) ∧
      ∀ e, v.resolveOrder.1 = .error e →
        v.resolveOrder.2 = v ∧ ∀ sink, v.unpack sink = ((.error e, sink), v) := by
  intro v
  obtain ⟨hmovie, hframe, hoptions⟩ := fields_calls h calls
  refine ⟨hmovie, hframe, hoptions, resolution_calls h calls, binaries_calls h calls,
    fun r => v.resolveOrder_eq_ok_iff, ?_⟩
  intro e he
  have hkept := resolveOrder_of_error he
  exact ⟨congrArg Prod.snd hkept, unpack_of_error hkept⟩

end

/-- The class's two accessors spell "a" and then "b". -/
def lettered : Program where
  minorVersion := 16
  majorVersion := 46
  constants := { Abc.ConstantPool.empty with strings := ["", "ab"] }
  methods := [accessor 0, accessor 1,
    Method.empty.withBody 1 (Code.assemble [.pushString 1, .pop, .returnVoid]),
    Method.empty.withBody 3 (Code.assemble [.getLocal0, .constructSuper 0, .getLocal0,
      .getLocal0, .callProperty 1 0, .getLocal0, .callProperty 2 0, .callProperty 3 1, .pop,
      .returnVoid])]
  metadata := []
  instances := [⟨0, 0, 0, none, [], 3, [.ofMethod 1 0, .ofMethod 2 1]⟩]
  classes := [⟨2, []⟩]
  scripts := []
where
  accessor (i : UInt8) : Method :=
    (Method.empty.withRest true).withBody 2 (Code.assemble [.pushByte i, .returnValue])

def letteredMovie : Movie :=
  .ofTags ⟨.none, 10, 0, ⟨0, 0, 0, 0⟩, 0, 1⟩
    [.abc ⟨1, Movie.firstFrameName, 0, lettered⟩, .binary ⟨5, [7]⟩, .symbols [(5, "game_b")]]

def opened : Unpacker where
  movie := letteredMovie
  frame := ⟨1, Movie.firstFrameName, 0, lettered⟩
  options := .standard
  resolution := .empty
  binaries := .empty

/-- The sink has no room when the order is found, and later the class is missing. -/
def interrupted : List Call :=
  [.resolveOrder, .withOptions ⟨0, "a", true⟩, .unpack ⟨[], some 0, false⟩,
    .withOptions ⟨1, "a", true⟩, .resolveOrder, .withOptions ⟨1, "b", false⟩]

theorem consistent_after_interrupted :
    Unpacker.new letteredMovie = .ok opened ∧
      let v := interrupted.foldl after opened
      v.resolution.order = ["b"] ∧ LastHappened (Finds lettered) interrupted v.resolution ∧
        v.binaries = .ofList [("b", [7])] ∧
        v.unpack .unlimited = ((.error (.abc (.indexOutOfRange .classes 1 1)), .unlimited), v) := by
  have h : Unpacker.new letteredMovie = .ok opened := rfl
  have horder : (interrupted.foldl after opened).resolution.order = ["b"] := by decide +kernel
  have hindexed : (interrupted.foldl after opened).binaries ≠ .empty := by decide +kernel
  obtain ⟨-, hframe, hoptions, hlast, hbinaries, -, herror⟩ := consistent_after h interrupted
  refine ⟨h, horder, ?_, ?_, ?_⟩
  · rcases hlast with ⟨hempty, -⟩ | hlast
    · rw [hempty] at horder
      cases horder
    · exact hlast
  · rcases hbinaries with ⟨hempty, -⟩ | ⟨hpayloads, -⟩
    · exact absurd hempty hindexed
    · rw [hpayloads]
      rfl
  · have hmissing : (interrupted.foldl after opened).resolveOrder.1 =
        .error (.abc (.indexOutOfRange .classes 1 1)) := by
      rw [resolveOrder, hoptions, hframe]
      rfl
    exact (herror _ hmissing).2 .unlimited

end Unpacker
end PackedMovie.Resource
