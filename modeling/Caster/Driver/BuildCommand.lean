import Caster.Library.Marks
import Caster.Library.ShellWords
import Caster.Web.Text

/-!
# The command that builds a program

The quoting of paths, and the command line that `main` gives to a shell.
-/

namespace Caster.Driver

open ShellWords

/-! ### Quoting -/

/-- The text `shell_quote` makes of a string, which ends before its first NUL. -/
def shellQuote (value : Bytes) : Bytes :=
  (value.takeWhile (· ≠ 0)).foldl
    (fun out p => if p = 39 then out ++ strLit "'\\''" else out ++ [p]) (strLit "'") ++ strLit "'"

/-- The bytes one byte of a string is written as. -/
def quoteByte (p : UInt8) : Bytes := if p = 39 then [39, 92, 39, 39] else [p]

theorem shellQuote_eq {value : Bytes} (h : 0 ∉ value) :
  shellQuote value = 39 :: (value.flatMap quoteByte ++ [39])
  := by
  have hloop (text out : Bytes) :
      text.foldl (fun out p => if p = 39 then out ++ strLit "'\\''" else out ++ [p]) out =
        out ++ text.flatMap quoteByte := by
    induction text generalizing out with
    | nil => simp
    | cons p text ih =>
      have hstep : (if p = 39 then out ++ strLit "'\\''" else out ++ [p]) = out ++ quoteByte p := by
        unfold quoteByte
        split_ifs <;> rfl
      rw [List.foldl_cons, hstep, ih, List.flatMap_cons, List.append_assoc]
  rw [shellQuote, Marks.takeWhile_of_not_mem h, hloop]
  rfl

theorem run_quoteByte (p : UInt8) (ws : List Word) (word : Word) :
  run ⟨ws, some word, .single⟩ (quoteByte p) = some ⟨ws, some (word ++ [p]), .single⟩
  := by
  unfold quoteByte
  split_ifs with hp
  · rw [hp]
    exact run_quote ws word
  · exact run_single (by simpa using Ne.symm hp) ws word

/-- A quoted string goes on with the word before it. -/
theorem run_shellQuote {value : Bytes} (h : 0 ∉ value) (ws : List Word) (word : Option Word) :
  run ⟨ws, word, .unquoted⟩ (shellQuote value) = some ⟨ws, some (word.getD [] ++ value), .unquoted⟩
  := by
  have hbody (text : Bytes) (word : Word) :
      run ⟨ws, some word, .single⟩ (text.flatMap quoteByte) =
        some ⟨ws, some (word ++ text), .single⟩ := by
    induction text generalizing word with
    | nil => simp
    | cons p text ih =>
      rw [List.flatMap_cons, run_append, run_quoteByte, Option.bind_some, ih, List.append_assoc,
        List.singleton_append]
  have hopen : step ⟨ws, word, .unquoted⟩ 39 = some ⟨ws, some (word.getD []), .single⟩ := rfl
  rw [shellQuote_eq h, run_cons, hopen, Option.bind_some, run_append, hbody]
  rfl

theorem reads_shellQuote {value : Bytes} (h : 0 ∉ value) : Reads (shellQuote value) [value] := by
  intro ws
  exact ⟨_, run_shellQuote h ws none, rfl, rfl⟩

/-- Plain bytes before a quoted string are the start of its word. -/
theorem reads_plain_shellQuote {text value : Bytes} (htext : ∀ b ∈ text, isPlain b = true)
    (hne : text ≠ []) (h : 0 ∉ value) :
  Reads (text ++ shellQuote value) [text ++ value]
  := by
  intro ws
  refine ⟨⟨ws, some (text ++ value), .unquoted⟩, ?_, rfl, rfl⟩
  rw [run_append, run_plain htext hne, Option.bind_some, run_shellQuote h]
  rfl

theorem reads_shellQuotes {values : List Bytes} (h : ∀ value ∈ values, 0 ∉ value) :
  Reads ([32].intercalate (values.map shellQuote)) values
  := by
  have hparts := @reads_intercalate (values.map fun value => (shellQuote value, [value])) (by
    intro part hpart
    obtain ⟨value, hvalue, rfl⟩ := List.mem_map.mp hpart
    exact reads_shellQuote (h value hvalue))
  rw [List.map_map, List.map_map] at hparts
  have hwords : (values.map (Prod.snd ∘ fun value => (shellQuote value, [value]))).flatten = values := by
    rw [← List.flatMap_def]
    exact List.flatMap_singleton' values
  rw [hwords] at hparts
  exact hparts

/-- A shell reads a quoted string as one word, and quoted strings with blanks between them as these
words in their order, in any line around them. -/
theorem words_shellQuote {values : List Bytes} (h : ∀ value ∈ values, 0 ∉ value)
    {before after : Bytes} {found found' : List Word} (hbefore : Reads before found)
    (hafter : Reads after found') :
  (∀ value ∈ values, words (shellQuote value) = some [value]) ∧
    words ([32].intercalate (values.map shellQuote)) = some values ∧
    words (before ++ 32 :: ([32].intercalate (values.map shellQuote) ++ 32 :: after)) =
      some (found ++ (values ++ found'))
  := by
  have hvalues := reads_shellQuotes h
  refine ⟨?_, words_of_reads hvalues, words_of_reads (hbefore.append (hvalues.append hafter))⟩
  intro value hvalue
  exact words_of_reads (reads_shellQuote (h value hvalue))

/-- The words `it's` and `''` behind `cc` and before `-o`. -/
theorem words_shellQuote_apostrophes :
  words (strLit "cc 'it'\\''s' ''\\'''\\''' -o") =
    some [strLit "cc", strLit "it's", strLit "''", strLit "-o"]
  := by
  have hplain (text : Bytes) (h : text.all isPlain = true) (hne : text ≠ []) : Reads text [text] :=
    reads_plain (List.all_eq_true.mp h) hne
  exact (@words_shellQuote [strLit "it's", strLit "''"] (by decide) (strLit "cc") (strLit "-o")
    [strLit "cc"] [strLit "-o"] (hplain _ (by decide) (by decide))
    (hplain _ (by decide) (by decide))).2.2

/-! ### The command -/

/-- What the command is made of: the paths, the flags that are texts already, and what the program
uses. -/
structure Build where
  repoRoot : Bytes
  output : Bytes
  exe : Bytes
  hashmapPath : Bytes
  cjsonPath : Bytes
  sqlitePath : Bytes
  generatedCflags : Bytes
  h2oCflags : Bytes
  h2oLdflags : Bytes
  usesJson : Bool
  usesSql : Bool
  usesReq : Bool

namespace Build

variable (b : Build)

/-- The quoted sources of the runtime. -/
def runtimeSources : Bytes :=
  let sources :=
    if b.usesJson then shellQuote b.hashmapPath ++ 32 :: shellQuote b.cjsonPath
    else shellQuote b.hashmapPath
  if b.usesSql then sources ++ 32 :: shellQuote b.sqlitePath else sources

/-- The flags of the database. -/
def sqlCflags : Bytes :=
  if b.usesSql then strLit "-DSQLITE_THREADSAFE=0 -DSQLITE_OMIT_LOAD_EXTENSION" else []

/-- The command line, whose parts have blanks between them. -/
def command : Bytes :=
  if b.usesReq then
    [32].intercalate [strLit "cc", b.generatedCflags, b.sqlCflags, strLit "-I" ++ shellQuote b.repoRoot,
      b.h2oCflags, strLit "-DH2O_USE_LIBUV=0 -x c", shellQuote b.output, strLit "-x none",
      b.runtimeSources, b.h2oLdflags, strLit "-o", shellQuote b.exe]
  else
    [32].intercalate [strLit "cc", b.generatedCflags, b.sqlCflags, strLit "-I" ++ shellQuote b.repoRoot,
      strLit "-x c", shellQuote b.output, strLit "-x none", b.runtimeSources, strLit "-o",
      shellQuote b.exe]

/-- The paths are strings. -/
structure IsText : Prop where
  repoRoot : 0 ∉ b.repoRoot
  output : 0 ∉ b.output
  exe : 0 ∉ b.exe
  hashmapPath : 0 ∉ b.hashmapPath
  cjsonPath : 0 ∉ b.cjsonPath
  sqlitePath : 0 ∉ b.sqlitePath

/-- The sources of the runtime. -/
def sourcePaths : List Bytes :=
  b.hashmapPath :: ((if b.usesJson then [b.cjsonPath] else []) ++
    if b.usesSql then [b.sqlitePath] else [])

/-- The words of the flags of the database. -/
def sqlWords : List Word :=
  if b.usesSql then [strLit "-DSQLITE_THREADSAFE=0", strLit "-DSQLITE_OMIT_LOAD_EXTENSION"] else []

variable {b}

theorem IsText.reads_runtimeSources (h : b.IsText) : Reads b.runtimeSources b.sourcePaths := by
  have hsource : Reads
      (if b.usesJson then shellQuote b.hashmapPath ++ 32 :: shellQuote b.cjsonPath
        else shellQuote b.hashmapPath)
      (b.hashmapPath :: if b.usesJson then [b.cjsonPath] else []) := by
    split_ifs
    · exact (reads_shellQuote h.hashmapPath).append (reads_shellQuote h.cjsonPath)
    · exact reads_shellQuote h.hashmapPath
  unfold runtimeSources sourcePaths
  dsimp only
  by_cases hsql : b.usesSql = true
  · rw [if_pos hsql, if_pos hsql]
    exact hsource.append (reads_shellQuote h.sqlitePath)
  · rw [if_neg hsql, if_neg hsql, List.append_nil]
    exact hsource

theorem reads_sqlCflags : Reads b.sqlCflags b.sqlWords := by
  unfold sqlCflags sqlWords
  split_ifs
  · have hthreads := @reads_plain (strLit "-DSQLITE_THREADSAFE=0") (List.all_eq_true.mp rfl) (by decide)
    have hload :=
      @reads_plain (strLit "-DSQLITE_OMIT_LOAD_EXTENSION") (List.all_eq_true.mp rfl) (by decide)
    exact hthreads.append hload
  · exact reads_nil

/-- A build of a program without adapters, in directories with an apostrophe and a blank. -/
def apostropheBuild : Build :=
  { repoRoot := strLit "it's", output := strLit "my out.C", exe := strLit "a.out",
    hashmapPath := strLit "it's/hashmap.c", cjsonPath := [], sqlitePath := [], generatedCflags := strLit "-O3",
    h2oCflags := [], h2oLdflags := [], usesJson := false, usesSql := false, usesReq := false }

end Build

end Caster.Driver
