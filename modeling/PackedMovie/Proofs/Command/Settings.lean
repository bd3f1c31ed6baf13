import PackedMovie.Command.Run
import PackedMovie.Command.Session
import PackedMovie.Proofs.Abc.Assembly

/-!
# Settings of a session

The settings of a run are those of the file that is named, or of the first one that there is in the
working directory and those above it. Without a file everything is left open. Looking for settings
leaves the session as it is.

Main statement: `loadSettings_eq_ok_iff`.
-/
namespace PackedMovie.Command

open PackedMovie.Abc (run_bind_eq)
open PackedMovie.Toml (Entries Item)

/-! ### What a settings file says -/

/-- The entry with a key is of the right kind and holds this, or there is none. -/
inductive Holds {α : Type} (es : Entries) (key : String) (item : α → Item) : Option α → Prop where
  | absent (h : es.lookup key = none) : Holds es key item none
  | present {a : α} (h : es.lookup key = some (item a)) : Holds es key item (some a)

/-- Entries with other keys do not matter. -/
structure Settles (es : Entries) (p : Preferences) : Prop where
  input : Holds es "input" .text p.input?
  classIndex : Holds es "class_index" (fun n : Nat => .integer n) p.classIndex?
  target : Holds es "target" .text p.target?
  strict : ∃ strict?, Holds es "strict" .boolean strict? ∧ p.strict = strict?.getD false

namespace Preferences

variable {α : Type} {es : Entries} {key : String}

theorem optional_eq_some_iff {read : Item → Option α} {item : α → Item} {x : Option α}
    (hread : ∀ i a, read i = some a ↔ i = item a) :
    optional read key es = some x ↔ Holds es key item x := by
  unfold optional
  constructor
  · intro h
    cases hlookup : es.lookup key with
    | none =>
      rw [hlookup] at h
      cases h
      exact .absent hlookup
    | some i =>
      rw [hlookup] at h
      obtain ⟨a, ha, rfl⟩ := Option.map_eq_some_iff.1 h
      rw [(hread i a).1 ha] at hlookup
      exact .present hlookup
  · rintro (h | @⟨a, h⟩)
    · rw [h]
    · rw [h]
      simp only [(hread _ a).2 rfl]
      rfl

theorem textOfItem?_eq_some_iff (i : Item) (text : String) :
    textOfItem? i = some text ↔ i = .text text := by
  cases i <;> simp [textOfItem?]

theorem boolOfItem?_eq_some_iff (i : Item) (b : Bool) :
    boolOfItem? i = some b ↔ i = .boolean b := by
  cases i <;> simp [boolOfItem?]

theorem indexOfItem?_eq_some_iff (i : Item) (n : Nat) :
    indexOfItem? i = some n ↔ i = .integer n := by
  cases i with
  | integer m =>
    rw [indexOfItem?, Option.ite_none_right_eq_some, Option.some.injEq, Item.integer.injEq]
    omega
  | _ => simp [indexOfItem?]

theorem ofEntries?_eq_some_iff {p : Preferences} : ofEntries? es = some p ↔ Settles es p := by
  unfold ofEntries?
  constructor
  · intro h
    obtain ⟨input?, hinput, h⟩ := Option.bind_eq_some_iff.1 h
    obtain ⟨classIndex?, hclass, h⟩ := Option.bind_eq_some_iff.1 h
    obtain ⟨target?, htarget, h⟩ := Option.bind_eq_some_iff.1 h
    obtain ⟨strict?, hstrict, h⟩ := Option.bind_eq_some_iff.1 h
    cases h
    exact ⟨(optional_eq_some_iff textOfItem?_eq_some_iff).1 hinput,
      (optional_eq_some_iff indexOfItem?_eq_some_iff).1 hclass,
      (optional_eq_some_iff textOfItem?_eq_some_iff).1 htarget,
      strict?, (optional_eq_some_iff boolOfItem?_eq_some_iff).1 hstrict, rfl⟩
  · rintro ⟨hinput, hclass, htarget, strict?, hstrict, hp⟩
    rw [(optional_eq_some_iff textOfItem?_eq_some_iff).2 hinput,
      (optional_eq_some_iff indexOfItem?_eq_some_iff).2 hclass,
      (optional_eq_some_iff textOfItem?_eq_some_iff).2 htarget,
      (optional_eq_some_iff boolOfItem?_eq_some_iff).2 hstrict]
    simp [← hp]

end Preferences

theorem preferencesOf_eq_ok_iff {content : Bytes} {p : Preferences} :
    preferencesOf content = .ok p ↔ ∃ text es, Utf8.decode content = .ok text ∧
      Toml.parse? text = some es ∧ Settles es p := by
  unfold preferencesOf
  constructor
  · intro h
    split at h
    · cases h
    · rename_i text htext
      split at h
      · rename_i q hparse
        cases h
        obtain ⟨es, hes, hp⟩ := Option.bind_eq_some_iff.1 hparse
        exact ⟨text, es, htext, hes, Preferences.ofEntries?_eq_some_iff.1 hp⟩
      · cases h
  · rintro ⟨text, es, htext, hes, hsettles⟩
    have hparse : Preferences.parse? text = some p :=
      Option.bind_eq_some_iff.2 ⟨es, hes, Preferences.ofEntries?_eq_some_iff.2 hsettles⟩
    rw [htext]
    simp only [hparse]

/-! ### Where settings come from -/

/-- Where a settings file may be: it is the one that is named, or it has one of two names in the
working directory or in one above it. -/
def settingsPaths (s : Session) : Option String → List String
  | some path => [path]
  | none => (Session.pathsUp s.working).flatMap fun directory =>
    [directory ++ "/" ++ "unpacker.toml", directory ++ "/" ++ ".unpackerrc.toml"]

/-- The settings of a session: those of the first file that there is, or none. -/
inductive Configures (s : Session) (named : Option String) : Preferences → Prop where
  | absent (h : ∀ path ∈ settingsPaths s named, s.tree.hasEntry s.working path = false) :
    Configures s named .empty
  | file {path : String} {content : Bytes} {text : String} {es : Entries} {p : Preferences}
    (hfound : (settingsPaths s named).find? (s.tree.hasEntry s.working) = some path)
    (hread : s.tree.read s.working path = .ok content) (htext : Utf8.decode content = .ok text)
    (hparse : Toml.parse? text = some es) (hsettles : Settles es p) : Configures s named p

theorem run_findEntry (paths : List String) (s : Session) :
    (findEntry paths : StateM Session _).run s =
      (paths.find? (s.tree.hasEntry s.working), s) := by
  induction paths with
  | nil => rfl
  | cons path paths ih =>
    have hentry : (Host.hasEntry path : StateM Session _).run s =
        (s.tree.hasEntry s.working path, s) := rfl
    rw [findEntry, run_bind_eq hentry, List.find?_cons]
    cases s.tree.hasEntry s.working path with
    | true => rfl
    | false => exact ih

theorem run_settingsFile (named : Option String) (s : Session) :
    (settingsFile named : StateM Session _).run s =
      ((settingsPaths s named).find? (s.tree.hasEntry s.working), s) := by
  cases named with
  | some path => exact run_findEntry [path] s
  | none =>
    have hpath : (Host.searchPath : StateM Session _).run s = (Session.pathsUp s.working, s) := rfl
    rw [settingsFile, run_bind_eq hpath]
    exact run_findEntry _ s

/-- The settings are read off the session, which stays as it is. -/
theorem run_loadSettings (named : Option String) (s : Session) :
    (loadSettings named : StateM Session _).run s =
      (match (settingsPaths s named).find? (s.tree.hasEntry s.working) with
        | none => .ok .empty
        | some path =>
          match s.tree.read s.working path with
          | .ok content => preferencesOf content
          | .error e => .error (.settingsUnreadable e), s) := by
  rw [loadSettings, run_bind_eq (run_settingsFile named s)]
  cases (settingsPaths s named).find? (s.tree.hasEntry s.working) with
  | none => rfl
  | some path =>
    have hread : (Host.readFile path : StateM Session _).run s =
        (s.tree.read s.working path, s) := rfl
    simp only
    rw [run_bind_eq hread]
    cases s.tree.read s.working path <;> rfl

theorem loadSettings_eq_ok_iff {named : Option String} {s : Session} {p : Preferences} :
    (loadSettings named : StateM Session _).run s = (.ok p, s) ↔ Configures s named p := by
  rw [run_loadSettings, Prod.mk.injEq, and_iff_left rfl]
  constructor
  · intro h
    cases hfound : (settingsPaths s named).find? (s.tree.hasEntry s.working) with
    | none =>
      rw [hfound] at h
      cases h
      exact .absent fun path hpath => by simpa using List.find?_eq_none.1 hfound path hpath
    | some path =>
      rw [hfound] at h
      simp only at h
      split at h
      · rename_i content hread
        obtain ⟨text, es, htext, hparse, hsettles⟩ := preferencesOf_eq_ok_iff.1 h
        exact .file hfound hread htext hparse hsettles
      · cases h
  · rintro (h | ⟨hfound, hread, htext, hparse, hsettles⟩)
    · have hnone : (settingsPaths s named).find? (s.tree.hasEntry s.working) = none :=
        List.find?_eq_none.2 fun path hpath => by simp [h path hpath]
      rw [hnone]
    · rw [hfound]
      simp only [hread]
      exact preferencesOf_eq_ok_iff.2 ⟨_, _, htext, hparse, hsettles⟩

theorem run_loadSettings_of_not_configures {named : Option String} {s : Session}
    (h : ¬ ∃ p, Configures s named p) :
    ∃ e, (loadSettings named : StateM Session _).run s = (.error e, s) := by
  obtain ⟨answer, hanswer⟩ : ∃ answer, (loadSettings named : StateM Session _).run s =
      (answer, s) := ⟨_, run_loadSettings named s⟩
  cases answer with
  | error e => exact ⟨e, hanswer⟩
  | ok p => exact absurd ⟨p, loadSettings_eq_ok_iff.1 hanswer⟩ h

end PackedMovie.Command
