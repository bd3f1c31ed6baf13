import Mathlib.Data.String.Basic
import PackedMovie.Storage.FileTree

/-!
# Writing to a file tree

Whether a file can be written does not depend on what is written. Behind the write the path leads to
the file, and it holds what was written.

Main statement: `exists_write`.
-/
namespace PackedMovie.FileTree

/-- The place is a file or a free name. -/
inductive Place.IsAt (location : Location) : Place → Prop where
  | file (content : Bytes) : IsAt location (.found location (.file content))
  | free : IsAt location (.free location)

variable {t after : FileTree} {directory working location : Location} {path : String}
  {parts : List String} {place : Place} {content : Bytes}

/-- What a descent ends at is neither a directory nor the root. -/
theorem get?_of_descend (h : t.descend directory parts = .ok place) (hplace : place.IsAt location) :
    location ≠ [] ∧ t.get? location ≠ some .directory := by
  fun_induction descend t directory parts with
  | case1 =>
    cases h
    cases hplace
  | case2 directory rest ih | case3 directory rest _ ih => exact ih h
  | case5 _ _ _ _ _ _ _ ih => exact ih h
  | case4 | case7 | case9 => cases h
  | case6 directory name _ _ _ _ hentry | case8 directory name _ _ _ hentry =>
    cases h
    cases hplace
    exact ⟨List.append_ne_nil_of_right_ne_nil _ (List.cons_ne_nil _ _), by simp [hentry]⟩

theorem descend_dot (t : FileTree) (directory : Location) (rest : List String) :
    t.descend directory ("." :: rest) = t.descend directory rest := by
  rw [descend.eq_def]
  simp only [if_pos]

theorem descend_dots (t : FileTree) (directory : Location) (rest : List String) :
    t.descend directory (".." :: rest) = t.descend directory.dropLast rest := by
  have hdot : ".." ≠ "." := by decide
  rw [descend.eq_def]
  simp only [if_neg hdot, if_pos]

theorem descend_directory {name : String} {rest : List String} (hdot : name ≠ ".")
    (hdots : name ≠ "..") (hlength : ¬ maxNameLength < (Utf8.encode name).length)
    (h : t.get? (directory ++ [name]) = some .directory) :
    t.descend directory (name :: rest) = t.descend (directory ++ [name]) rest := by
  rw [descend.eq_def]
  simp only [if_neg hdot, if_neg hdots, if_neg hlength, h]

theorem descend_file {name : String} (hdot : name ≠ ".") (hdots : name ≠ "..")
    (hlength : ¬ maxNameLength < (Utf8.encode name).length)
    (h : t.get? (directory ++ [name]) = some (.file content)) :
    t.descend directory [name] = .ok (.found (directory ++ [name]) (.file content)) := by
  rw [descend.eq_def]
  simp only [if_neg hdot, if_neg hdots, if_neg hlength, h]

/-- Once the file is there, the same names lead to it: all that the descent passes through are
directories, which stay. -/
theorem descend_set (h : t.descend directory parts = .ok place) (hplace : place.IsAt location)
    (content : Bytes) :
    (t.set location (.file content)).descend directory parts =
      .ok (.found location (.file content)) := by
  obtain ⟨hroot, hfile⟩ := get?_of_descend h hplace
  have hnew : (t.set location (.file content)).get? location = some (.file content) := by
    rw [get?_set _ _ hroot, if_pos rfl]
  fun_induction descend t directory parts with
  | case1 =>
    cases h
    cases hplace
  | case2 directory rest ih =>
    rw [descend_dot]
    exact ih h
  | case3 directory rest hdot ih =>
    rw [descend_dots]
    exact ih h
  | case4 | case7 | case9 => cases h
  | case5 directory name hdot hdots hlength rest hentry ih =>
    have hother : directory ++ [name] ≠ location := by
      rintro rfl
      exact hfile hentry
    have hkept : (t.set location (.file content)).get? (directory ++ [name]) = some .directory := by
      rw [get?_set _ _ (List.append_ne_nil_of_right_ne_nil _ (List.cons_ne_nil _ _)), if_neg hother,
        hentry]
    rw [descend_directory hdot hdots hlength hkept]
    exact ih h
  | case6 directory name hdot hdots hlength _ _ | case8 directory name hdot hdots hlength _ =>
    cases h
    cases hplace
    exact descend_file hdot hdots hlength hnew

theorem locate_set (h : t.locate working path parts = .ok place) (hplace : place.IsAt location)
    (content : Bytes) :
    (t.set location (.file content)).locate working path parts =
      .ok (.found location (.file content)) := by
  unfold locate at h ⊢
  split at h
  · cases h
  · rename_i hnul
    rw [if_neg hnul]
    split at h
    · cases h
    · rename_i hempty
      rw [if_neg hempty]
      split at h
      · cases h
      · rename_i hlength
        rw [if_neg hlength]
        exact descend_set h hplace content

theorem write_eq_ok_iff :
    t.write working path content = .ok after ↔
      endsInSlash path = false ∧ ∃ place location,
        t.locate working path (names path) = .ok place ∧ place.IsAt location ∧
        after = t.set location (.file content) := by
  unfold write
  cases hlocate : t.locate working path (names path) with
  | error e => simp [bind, Except.bind]
  | ok place =>
    constructor
    · intro h
      simp only [bind, Except.bind] at h
      split at h
      · cases h
      · split at h
        · cases h
        · rename_i location old hslash
          cases h
          exact ⟨Bool.eq_false_iff.2 hslash, _, location, rfl, .file old, rfl⟩
      · split at h
        · cases h
        · rename_i location hslash
          cases h
          exact ⟨Bool.eq_false_iff.2 hslash, _, location, rfl, .free, rfl⟩
    · rintro ⟨hslash, _, location, ⟨⟩, hplace, rfl⟩
      have hkeeps : ¬ endsInSlash path = true := Bool.eq_false_iff.1 hslash
      cases hplace with
      | file old => exact if_neg hkeeps
      | free => exact if_neg hkeeps

theorem find_of_locate (hslash : endsInSlash path = false)
    (h : t.locate working path (names path) = .ok (.found location (.file content))) :
    t.find working path = .ok (.file content) := by
  rw [find, hslash, if_neg Bool.false_ne_true, List.append_nil, h]
  rfl

theorem read_of_find (h : t.find working path = .ok (.file content)) :
    t.read working path = .ok content := by
  rw [read, h]
  rfl

/-- Where one file can be written any file can. It is read back, and nothing else changes. -/
theorem exists_write {old : Bytes} (h : t.write working path old = .ok after) (content : Bytes) :
    ∃ location, t.write working path content = .ok (t.set location (.file content)) ∧
      (t.set location (.file content)).read working path = .ok content := by
  obtain ⟨hslash, place, location, hlocate, hplace, -⟩ := write_eq_ok_iff.1 h
  refine ⟨location, write_eq_ok_iff.2 ⟨hslash, place, location, hlocate, hplace, rfl⟩, ?_⟩
  exact read_of_find (find_of_locate hslash (locate_set hlocate hplace content))

/-! ### Paths of one name -/

theorem splitOnAux_plain (front back : List Char) (h : '/' ∉ back) :
    String.splitOnAux (.ofList (front ++ back)) "/" 0 ⟨String.utf8Len front⟩ 0 [] =
      [.ofList (front ++ back)] := by
  induction back generalizing front with
  | nil =>
    have hwhole := String.extract_of_valid [] front []
    rw [String.splitOnAux, if_pos ((String.atEnd_of_valid front []).2 rfl)]
    simpa using hwhole
  | cons c back ih =>
    have hnot : c ≠ '/' := by
      rintro rfl
      exact h List.mem_cons_self
    have hrest := ih (front ++ [c]) fun hmem => h (List.mem_cons_of_mem c hmem)
    have hslash : String.Pos.Raw.get "/" 0 = '/' := by decide
    have hmore := mt (String.atEnd_of_valid front (c :: back)).1 (List.cons_ne_nil c back)
    have hnext := String.next_of_valid front c back
    rw [String.splitOnAux, if_neg hmore, String.get_of_valid front (c :: back), hslash,
      if_neg (by simpa using hnot)]
    have hstay : String.Pos.Raw.unoffsetBy ⟨String.utf8Len front⟩ 0 = ⟨String.utf8Len front⟩ := rfl
    rw [hstay, hnext]
    simpa using hrest

/-- A name without a slash is a path. -/
theorem names_plain {name : String} (hslash : '/' ∉ name.toList) (hname : name ≠ "") :
    names name = [name] := by
  have hsplit := splitOnAux_plain [] name.toList hslash
  have hseparator : ("/" == "") = false := by decide
  have hnames : name.splitOn "/" = [name] := by
    rw [String.splitOn, hseparator, if_neg Bool.false_ne_true]
    simpa using hsplit
  rw [names, hnames]
  simp [hname]

/-- A name is looked up in the working directory. -/
theorem locate_plain {name : String} (hslash : '/' ∉ name.toList) (hnul : '\x00' ∉ name.toList)
    (hname : name ≠ "") (hlength : (Utf8.encode name).length ≤ maxNameLength) :
    t.locate working name (names name) = t.descend working [name] := by
  have hstart : name.startsWith "/" = false := by
    rw [Bool.eq_false_iff]
    intro hstart
    exact hslash ((String.startsWith_string_iff.1 hstart).subset List.mem_cons_self)
  have hcontains : name.contains '\x00' = false := by
    rw [String.contains_char_eq, decide_eq_false hnul]
  have hempty : name.isEmpty = false := by
    rw [Bool.eq_false_iff]
    exact mt String.isEmpty_iff.1 hname
  have hshort : ¬ maxPathLength < (Utf8.encode name).length :=
    Nat.not_lt.2 (Nat.le_trans hlength (by decide))
  rw [locate, hcontains, hempty, hstart, names_plain hslash hname, if_neg Bool.false_ne_true,
    if_neg Bool.false_ne_true, if_neg hshort, if_neg Bool.false_ne_true]

end PackedMovie.FileTree
