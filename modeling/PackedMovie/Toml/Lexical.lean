import PackedMovie.Text.Numeral
import PackedMovie.Toml.Item

/-!
# Gaps, keys and strings of TOML

Each reader takes the text that is left and returns what it read with the text behind it.
-/
namespace PackedMovie.Toml

/-! ### Gaps -/

def isBlank (c : Char) : Bool := c = ' ' || c = '\t'

def skipBlanks (cs : List Char) : List Char := cs.dropWhile isBlank

/-- The text behind the line end that stands here. -/
def newline? : List Char → Option (List Char)
  | '\n' :: rest => some rest
  | '\r' :: '\n' :: rest => some rest
  | _ => none

/-- No control character but the tab. -/
def isPrintable (c : Char) : Bool := c = '\t' || (' ' ≤ c && c ≠ '\x7f')

def skipComment : List Char → List Char
  | '#' :: rest => rest.dropWhile isPrintable
  | cs => cs

/-- The text behind the line, on which only blanks and a comment may be left. -/
def lineEnd? (cs : List Char) : Option (List Char) :=
  match skipComment (skipBlanks cs) with
  | [] => some []
  | rest => newline? rest

/-- Blanks and line ends. -/
def skipLines : List Char → List Char
  | '\n' :: rest => skipLines rest
  | '\r' :: '\n' :: rest => skipLines rest
  | c :: rest => if isBlank c then skipLines rest else c :: rest
  | [] => []

/-- Blanks, line ends and comments; are we inside a comment? -/
def skipGaps : Bool → List Char → List Char
  | _, '\n' :: rest => skipGaps false rest
  | _, '\r' :: '\n' :: rest => skipGaps false rest
  | false, '#' :: rest => skipGaps true rest
  | inComment, c :: rest =>
    if isBlank c || (inComment && isPrintable c) then skipGaps inComment rest else c :: rest
  | _, [] => []

theorem newline?_length_lt {cs rest : List Char} (h : newline? cs = some rest) :
    rest.length < cs.length := by
  unfold newline? at h
  split at h
  · cases h
    exact Nat.lt_succ_self _
  · cases h
    exact Nat.lt_succ_of_lt (Nat.lt_succ_self _)
  · cases h

theorem skipLines_length_le (cs : List Char) : (skipLines cs).length ≤ cs.length := by
  fun_induction skipLines cs with
  | case1 _ ih => exact Nat.le_succ_of_le ih
  | case2 _ ih => exact Nat.le_succ_of_le (Nat.le_succ_of_le ih)
  | case3 _ _ _ _ _ ih => exact Nat.le_succ_of_le ih
  | case4 => exact Nat.le_refl _
  | case5 => exact Nat.le_refl _

/-! ### Strings -/

def doubleQuote : Char := '"'
def singleQuote : Char := '\x27'

def letterEscape? (c : Char) : Option Char :=
  [('"', '"'), ('\\', '\\'), ('b', '\x08'), ('f', '\x0c'), ('n', '\n'), ('r', '\r'), ('t', '\t')].lookup c

/-- The character whose code point is written with a fixed number of digits. -/
def codePoint? (width : Nat) (cs : List Char) : Option (Char × List Char) :=
  if width ≤ cs.length then
    match Numeral.value? 16 (cs.take width) with
    | some n => if n.isValidChar then some (Char.ofNat n, cs.drop width) else none
    | none => none
  else none

/-- What is escaped, read behind the backslash. -/
def escaped? : List Char → Option (Char × List Char)
  | 'u' :: rest => codePoint? 4 rest
  | 'U' :: rest => codePoint? 8 rest
  | c :: rest => (letterEscape? c).map fun escaped => (escaped, rest)
  | [] => none

theorem codePoint?_length_le {width : Nat} {cs rest : List Char} {c : Char}
    (h : codePoint? width cs = some (c, rest)) : rest.length ≤ cs.length := by
  unfold codePoint? at h
  split at h
  · split at h
    · split at h
      · cases h
        simp
      · cases h
    · cases h
  · cases h

theorem escaped?_length_lt {cs rest : List Char} {c : Char} (h : escaped? cs = some (c, rest)) :
    rest.length < cs.length := by
  unfold escaped? at h
  split at h
  · exact Nat.lt_succ_of_le (codePoint?_length_le h)
  · exact Nat.lt_succ_of_le (codePoint?_length_le h)
  · simp only [Option.map_eq_some_iff, Prod.mk.injEq] at h
    obtain ⟨_, _, _, rfl⟩ := h
    exact Nat.lt_succ_self _
  · cases h

/-- The rest of a string on one line; `done` is what came before it, in reverse. Only double quotes have
escapes. -/
def lineText (quote : Char) (done cs : List Char) : Option (String × List Char) :=
  match cs with
  | [] => none
  | c :: rest =>
    if c = quote then some (String.ofList done.reverse, rest)
    else if c = '\\' ∧ quote = doubleQuote then
      match _h : escaped? rest with
      | some (escaped, after) => lineText quote (escaped :: done) after
      | none => none
    else if isPrintable c then lineText quote (c :: done) rest
    else none
termination_by cs.length
decreasing_by
  · exact Nat.lt_succ_of_lt (escaped?_length_lt _h)
  · exact Nat.lt_succ_self _

/-- A backslash at the end of a line takes away the line end and all blanks and empty lines behind it. -/
def joined? (cs : List Char) : Option (List Char) := (newline? (skipBlanks cs)).map skipLines

theorem joined?_length_le {cs rest : List Char} (h : joined? cs = some rest) :
    rest.length ≤ cs.length := by
  simp only [joined?, Option.map_eq_some_iff] at h
  obtain ⟨after, hafter, rfl⟩ := h
  have hblanks : (skipBlanks cs).length ≤ cs.length := (List.dropWhile_sublist _).length_le
  have := newline?_length_lt hafter
  have := skipLines_length_le after
  omega

/-- Three quotes end a block. One or two more in front of them belong to its text. -/
def blockEnd? (quote : Char) (cs : List Char) : Option (List Char × List Char) :=
  let quotes := (cs.takeWhile (· = quote)).length
  if quotes < 3 then none
  else
    let extra := min 2 (quotes - 3)
    some (List.replicate extra quote, cs.drop (extra + 3))

/-- The rest of a string that may go over several lines. -/
def blockText (quote : Char) (done cs : List Char) : Option (String × List Char) :=
  match blockEnd? quote cs with
  | some (extra, after) => some (String.ofList (done.reverse ++ extra), after)
  | none =>
    match _hline : newline? cs with
    | some after => blockText quote ('\n' :: done) after
    | none =>
      match cs with
      | [] => none
      | c :: rest =>
        if c = '\\' ∧ quote = doubleQuote then
          match _hjoin : joined? rest with
          | some after => blockText quote done after
          | none =>
            match _h : escaped? rest with
            | some (escaped, after) => blockText quote (escaped :: done) after
            | none => none
        else if isPrintable c then blockText quote (c :: done) rest
        else none
termination_by cs.length
decreasing_by
  · exact newline?_length_lt _hline
  · exact Nat.lt_succ_of_le (joined?_length_le _hjoin)
  · exact Nat.lt_succ_of_lt (escaped?_length_lt _h)
  · exact Nat.lt_succ_self _

/-- A string of any of the four kinds, by the quotes that open it. A line end right behind three quotes does
not count. -/
def text? : List Char → Option (String × List Char)
  | '"' :: '"' :: '"' :: rest => blockText doubleQuote [] ((newline? rest).getD rest)
  | '\x27' :: '\x27' :: '\x27' :: rest => blockText singleQuote [] ((newline? rest).getD rest)
  | '"' :: rest => lineText doubleQuote [] rest
  | '\x27' :: rest => lineText singleQuote [] rest
  | _ => none

/-! ### Keys -/

def isBare (c : Char) : Bool := c.isAlphanum || c = '_' || c = '-'

def keyPart? : List Char → Option (String × List Char)
  | '"' :: rest => lineText doubleQuote [] rest
  | '\x27' :: rest => lineText singleQuote [] rest
  | cs =>
    let name := cs.takeWhile isBare
    if name.isEmpty then none else some (String.ofList name, cs.dropWhile isBare)

/-- Neither keys nor values are nested deeper than this. -/
def maxDepth : Nat := 79

/-- A dotted key of bounded length, with the blanks around its parts. -/
def keyPath : Nat → List Char → Option ((String × List String) × List Char)
  | 0, _ => none
  | parts + 1, cs => do
    let (part, rest) ← keyPart? (skipBlanks cs)
    match skipBlanks rest with
    | '.' :: more =>
      let ((next, path), after) ← keyPath parts more
      pure ((part, next :: path), after)
    | after => pure ((part, []), after)

end PackedMovie.Toml
