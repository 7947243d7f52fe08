import Mathlib.Tactic

/-!
# The words of a shell command

The words a POSIX shell reads of a line, where quotes and backslashes are taken away.  A line with an
operator, an expansion, a pattern or a comment is not read.  A character is a byte.
-/

namespace ShellWords

/-- The bytes of a word. -/
abbrev Word := List UInt8

/-- What the shell is in the middle of. -/
inductive Quoting where
  | unquoted
  | backslash
  | single
  | double
  | doubleBackslash
deriving DecidableEq

/-- The words that are read, the word that is being read, and what it is in the middle of. -/
structure State where
  words : List Word
  word : Option Word
  quoting : Quoting
deriving DecidableEq

namespace State

/-- A byte of the word that is being read. -/
def push (s : State) (b : UInt8) : State := { s with word := some (s.word.getD [] ++ [b]) }

/-- A word is being read, be it empty. -/
def begin (s : State) (quoting : Quoting) : State := { s with word := some (s.word.getD []), quoting }

/-- The word ends. -/
def finish (s : State) : State := { s with words := s.words ++ s.word.toList, word := none }

end State

/-- Letters, digits, and the signs `%+,-./:=@_`, which mean nothing of their own. -/
def isPlain (b : UInt8) : Bool :=
  48 ≤ b ∧ b ≤ 57 ∨ 65 ≤ b ∧ b ≤ 90 ∨ 97 ≤ b ∧ b ≤ 122 ∨ b ∈ [37, 43, 44, 45, 46, 47, 58, 61, 64, 95]

/-- Blanks, the space and the tab. -/
def isBlank (b : UInt8) : Bool := b = 32 ∨ b = 9

/-- A byte is read. -/
def step (s : State) (b : UInt8) : Option State :=
  match s.quoting with
  | .unquoted =>
    if isBlank b then some s.finish
    else if b = 39 then some (s.begin .single)
    else if b = 34 then some (s.begin .double)
    else if b = 92 then some { s with quoting := .backslash }
    else if isPlain b then some (s.push b)
    else none
  | .backslash =>
    -- a backslash before the end of a line joins two lines
    if b = 10 then some { s with quoting := .unquoted }
    else some { s.push b with quoting := .unquoted }
  | .single => if b = 39 then some { s with quoting := .unquoted } else some (s.push b)
  | .double =>
    if b = 34 then some { s with quoting := .unquoted }
    else if b = 92 then some { s with quoting := .doubleBackslash }
    else if b = 36 ∨ b = 96 then none
    else some (s.push b)
  | .doubleBackslash =>
    if b = 10 then some { s with quoting := .double }
    else if b ∈ [34, 36, 92, 96] then some { s.push b with quoting := .double }
    else some { (s.push 92).push b with quoting := .double }

/-- Some bytes are read. -/
def run (s : State) (text : List UInt8) : Option State := text.foldlM step s

/-- The words of a line. -/
def words (text : List UInt8) : Option (List Word) := do
  let s ← run ⟨[], none, .unquoted⟩ text
  if s.quoting = .unquoted then some s.finish.words else none

@[simp] theorem run_nil (s : State) : run s [] = some s := rfl

@[simp] theorem run_cons (s : State) (b : UInt8) (text : List UInt8) :
  run s (b :: text) = (step s b).bind fun s' => run s' text
  := rfl

theorem run_append (s : State) (text text' : List UInt8) :
  run s (text ++ text') = (run s text).bind fun s' => run s' text'
  := List.foldlM_append

/-! ### Parts of a line -/

/-- Some bytes are read to some words with nothing behind the last one. -/
def Reads (text : List UInt8) (found : List Word) : Prop :=
  ∀ ws, ∃ s, run ⟨ws, none, .unquoted⟩ text = some s ∧ s.quoting = .unquoted ∧
    s.finish.words = ws ++ found

theorem words_of_reads {text : List UInt8} {found : List Word} (h : Reads text found) :
  words text = some found
  := by
  obtain ⟨s, hrun, hquoting, hwords⟩ := h []
  rw [words, hrun]
  simp [hquoting, hwords]

theorem reads_nil : Reads [] [] := fun ws => ⟨_, rfl, rfl, by simp [State.finish]⟩

/-- A blank is between the words of two parts. -/
theorem Reads.append {text text' : List UInt8} {found found' : List Word} (h : Reads text found)
    (h' : Reads text' found') :
  Reads (text ++ 32 :: text') (found ++ found')
  := by
  intro ws
  obtain ⟨s, hrun, hquoting, hwords⟩ := h ws
  obtain ⟨s', hrun', hquoting', hwords'⟩ := h' (ws ++ found)
  have hblank : step s 32 = some ⟨ws ++ found, none, .unquoted⟩ := by
    obtain ⟨words, word, quoting⟩ := s
    dsimp only at hquoting
    subst hquoting
    rw [← hwords]
    rfl
  refine ⟨s', ?_, hquoting', by rw [hwords', List.append_assoc]⟩
  rw [run_append, hrun, Option.bind_some, run_cons, hblank, Option.bind_some, hrun']

/-- Parts with a blank between any two of them. -/
theorem reads_intercalate {parts : List (List UInt8 × List Word)}
    (h : ∀ part ∈ parts, Reads part.1 part.2) :
  Reads ([32].intercalate (parts.map Prod.fst)) (parts.map Prod.snd).flatten
  := by
  induction parts with
  | nil => exact reads_nil
  | cons part parts ih =>
    obtain ⟨hpart, hparts⟩ := List.forall_mem_cons.mp h
    cases parts with
    | nil => simpa using hpart
    | cons part' parts => exact hpart.append (ih hparts)

/-! ### Quoted texts -/

/-- Bytes between single quotes are bytes of the word. -/
theorem run_single {text : List UInt8} (h : 39 ∉ text) (ws : List Word) (word : Word) :
  run ⟨ws, some word, .single⟩ text = some ⟨ws, some (word ++ text), .single⟩
  := by
  induction text generalizing word with
  | nil => simp
  | cons b text ih =>
    rw [List.mem_cons, not_or] at h
    have hstep : step ⟨ws, some word, .single⟩ b = some ⟨ws, some (word ++ [b]), .single⟩ :=
      if_neg (Ne.symm h.1)
    rw [run_cons, hstep, Option.bind_some, ih h.2, List.append_assoc, List.singleton_append]

/-- A single quote is written behind a backslash, outside of the quotes. -/
theorem run_quote (ws : List Word) (word : Word) :
  run ⟨ws, some word, .single⟩ [39, 92, 39, 39] = some ⟨ws, some (word ++ [39]), .single⟩
  := rfl

/-- Plain bytes are bytes of the word. -/
theorem run_plain {text : List UInt8} (h : ∀ b ∈ text, isPlain b = true) (hne : text ≠ [])
    (ws : List Word) (word : Option Word) :
  run ⟨ws, word, .unquoted⟩ text = some ⟨ws, some (word.getD [] ++ text), .unquoted⟩
  := by
  induction text generalizing word with
  | nil => exact absurd rfl hne
  | cons b text ih =>
    obtain ⟨hb, htext⟩ := List.forall_mem_cons.mp h
    have hspecial : isBlank b = false ∧ b ≠ 39 ∧ b ≠ 34 ∧ b ≠ 92 := by
      refine ⟨?_, ?_, ?_, ?_⟩
      · rw [Bool.eq_false_iff]
        intro hblank
        rcases of_decide_eq_true hblank with rfl | rfl <;> exact absurd hb (by decide)
      all_goals
        rintro rfl
        exact absurd hb (by decide)
    have hstep : step ⟨ws, word, .unquoted⟩ b = some ⟨ws, some (word.getD [] ++ [b]), .unquoted⟩ := by
      simp [step, hspecial, hb, State.push]
    rw [run_cons, hstep, Option.bind_some]
    cases text with
    | nil => rfl
    | cons c text => rw [ih htext (List.cons_ne_nil _ _), Option.getD_some, List.append_assoc,
        List.singleton_append]

theorem reads_plain {text : List UInt8} (h : ∀ b ∈ text, isPlain b = true) (hne : text ≠ []) :
  Reads text [text]
  := by
  intro ws
  exact ⟨_, run_plain h hne ws none, rfl, rfl⟩

end ShellWords
