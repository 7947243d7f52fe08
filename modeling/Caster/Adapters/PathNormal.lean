import Caster.Adapters.Paths
import Caster.Library.NormalPaths

/-!
# Normal paths of the runtime

When `PATH.normalize` gives a normal form, and when `PATH.join` puts together again what
`PATH.parent` and `PATH.name` make of a path.  Both go wrong where a part that is not the first of
a path, such as `C:x` in `./C:x`, is the first of the normalized one and starts it with a drive.
-/

namespace Caster.Sys

open Driver (Text Path)
open UnixPath

/-! ### Spelling -/

/-- Text without separators. -/
def SepFree (part : Text) : Prop := ∀ c ∈ part, flxPathIsSep c = false

theorem sepFree_of_mem_splitOnP {path : Path} {part : Text}
    (h : part ∈ path.splitOnP flxPathIsSep) :
  SepFree part
  := by
  induction path generalizing part with
  | nil =>
    rw [List.splitOnP_nil, List.mem_singleton] at h
    rw [h]
    exact fun c hc => absurd hc List.not_mem_nil
  | cons c path ih =>
    rw [List.splitOnP_cons_eq_if_modifyHead] at h
    split_ifs at h with hc
    · rcases List.mem_cons.mp h with rfl | h
      · exact fun c hc => absurd hc List.not_mem_nil
      · exact ih h
    · obtain ⟨first, rest, hsplit⟩ :=
        List.exists_cons_of_ne_nil (List.splitOnP_ne_nil flxPathIsSep path)
      rw [hsplit, List.modifyHead_cons] at h
      rw [hsplit] at ih
      rcases List.mem_cons.mp h with rfl | h
      · intro d hd
        rcases List.mem_cons.mp hd with rfl | hd
        · exact eq_false_of_ne_true hc
        · exact ih List.mem_cons_self d hd
      · exact ih (List.mem_cons_of_mem _ h)

/-- Parts none of which can be left out, without separators in them. -/
structure Spelled (parts : List Text) : Prop where
  tidy : Tidy true parts
  sepFree : ∀ part ∈ parts, SepFree part

section

variable {parts : List Text}

theorem Spelled.slash_not_mem (h : Spelled parts) : ∀ part ∈ parts, '/' ∉ part := by
  intro part hpart hslash
  have hsep := h.sepFree part hpart '/' hslash
  cases hsep

theorem Spelled.back_not_mem (h : Spelled parts) (absolute : Bool) :
  '\\' ∉ render absolute parts
  := by
  intro hback
  rcases mem_render hback with heq | heq | ⟨part, hpart, hmem⟩
  · exact absurd heq (by decide)
  · exact absurd heq (by decide)
  · have hsep := h.sepFree part hpart '\\' hmem
    cases hsep

theorem Spelled.dropLast (h : Spelled parts) : Spelled parts.dropLast := by
  constructor
  · exact h.tidy.dropLast
  · exact fun part hpart => h.sepFree part (List.dropLast_subset _ hpart)

theorem Spelled.tail {first : Text} (h : Spelled (first :: parts)) (hfirst : first ≠ dotDot) :
  Spelled parts
  := by
  obtain ⟨⟨_, _, _, hrest⟩, hsep⟩ := h
  rw [decide_eq_false hfirst] at hrest
  exact ⟨Tidy.weaken hrest, fun part hpart => hsep part (List.mem_cons_of_mem _ hpart)⟩

/-- The parts of the path behind a drive. -/
def driveParts (path : Path) : List Text :=
  (path.drop (pathDrive path).length).splitOnP flxPathIsSep

theorem spelled_normal (path : Path) : Spelled (normal (driveParts path)) := by
  constructor
  · exact tidy_normal _
  · exact fun part hpart => sepFree_of_mem_splitOnP (mem_normal hpart).1

theorem pathDrive_eq (path : Path) :
  pathDrive path = [] ∨ ∃ c, c.isAlpha = true ∧ pathDrive path = [c, ':']
  := by
  unfold pathDrive
  split
  · rename_i c path
    by_cases hc : c.isAlpha = true
    · right
      exact ⟨c, hc, if_pos hc⟩
    · left
      exact if_neg hc
  · left
    rfl

theorem pathDrive_cons {c : Char} (hc : c.isAlpha = true) (path : Path) :
  pathDrive (c :: ':' :: path) = [c, ':']
  := if_pos hc

/-- A drive is the start of the path. -/
theorem eq_of_pathDrive {path : Path} {c : Char} (h : pathDrive path = [c, ':']) :
  ∃ rest, path = c :: ':' :: rest
  := by
  unfold pathDrive at h
  split at h
  · rename_i d rest
    split_ifs at h
    cases h
    exact ⟨rest, rfl⟩
  · cases h

/-- A path with a drive is absolute. -/
theorem pathNormalize_of_drive {path : Path} {c : Char} (h : pathDrive path = [c, ':']) :
  pathNormalize path = c :: ':' :: '/' :: ['/'].intercalate (normal (driveParts path))
  := by
  have habs : flxPathIsAbsolute path = true := by simp [flxPathIsAbsolute, h]
  unfold pathNormalize
  dsimp only
  rw [pathParts, foldl_pushPart, habs, if_pos rfl, if_neg (by simp [h]), ← driveParts, h]
  rfl

theorem pathNormalize_of_no_drive {path : Path} (h : pathDrive path = []) :
  pathNormalize path = render (flxPathIsAbsolute path) (normal (driveParts path))
  := by
  unfold pathNormalize
  dsimp only
  rw [pathParts, foldl_pushPart, ← driveParts, h]
  rfl

/-- The first two characters decide whether a path starts with a drive. -/
theorem pathDrive_cons_cons (c d : Char) (path path' : Path) :
  pathDrive (c :: d :: path) = pathDrive (c :: d :: path')
  := by
  by_cases hd : d = ':'
  · subst hd
    rfl
  · simp [pathDrive, hd]

theorem pathDrive_slash (path : Path) : pathDrive ('/' :: path) = [] := by
  unfold pathDrive
  split
  · rename_i heq
    cases heq
    rfl
  · rfl

/-- The first part decides whether a relative path starts with a drive. -/
theorem pathDrive_render {first : Text} (hfirst : first ≠ []) (rest : List Text) :
  pathDrive (render false (first :: rest)) = pathDrive first
  := by
  obtain ⟨c, first, rfl⟩ := List.exists_cons_of_ne_nil hfirst
  cases rest with
  | nil => rw [render_singleton false hfirst]; rfl
  | cons next rest =>
    have hrender : render false ((c :: first) :: next :: rest) =
        c :: (first ++ '/' :: ['/'].intercalate (next :: rest)) := by
      simp [render, List.intercalate_cons_cons]
    rw [hrender]
    cases first with
    | nil => rfl
    | cons d first => exact pathDrive_cons_cons c d _ _

/-- Spelled parts behind a drive stay. -/
theorem pathNormalize_drive {c : Char} (hc : c.isAlpha = true) (h : Spelled parts) :
  pathNormalize (c :: ':' :: '/' :: ['/'].intercalate parts) =
    c :: ':' :: '/' :: ['/'].intercalate parts
  := by
  have hdrive := pathDrive_cons hc ('/' :: ['/'].intercalate parts)
  have hrender : '/' :: ['/'].intercalate parts = render true parts := by simp [render]
  have hparts : normal (driveParts (c :: ':' :: '/' :: ['/'].intercalate parts)) = parts := by
    rw [driveParts, hdrive]
    show normal (('/' :: ['/'].intercalate parts).splitOnP flxPathIsSep) = parts
    rw [hrender, splitOnP_of_back (h.back_not_mem true)]
    exact normal_split_render true h.tidy h.slash_not_mem
  rw [pathNormalize_of_drive hdrive, hparts]

/-- Spelled parts that start with no drive stay. -/
theorem pathNormalize_render (absolute : Bool) (h : Spelled parts)
    (hdrive : pathDrive (render absolute parts) = []) :
  pathNormalize (render absolute parts) = render absolute parts
  := by
  have hslashed : Slashed (render absolute parts) := ⟨h.back_not_mem absolute, hdrive⟩
  have hboth : ∀ part ∈ parts, part ≠ [] ∧ '/' ∉ part :=
    fun part hpart => ⟨(h.tidy.ne hpart).1, h.slash_not_mem part hpart⟩
  rw [hslashed.pathNormalize_eq, simplify, isAbsolute_render hboth,
    normal_split_render absolute h.tidy h.slash_not_mem]

end

/-! ### The normal form -/

/-- A relative path leads down along names of which the first starts with a drive, and the drive is
not followed by a slash. -/
def ExposesDrive (path : Path) : Prop :=
  flxPathIsAbsolute path = false ∧
    ∃ first rest, Below (path.splitOnP flxPathIsSep) (first :: rest) ∧
      pathDrive first ≠ [] ∧ (rest = [] ∨ 2 < first.length)

/-- What stands between the separators of a path, behind its drive and its root.  A path of one dot
is the empty one. -/
def components (path : Path) : List Text :=
  let rest := path.drop (pathDrive path).length
  let below := if rest.head?.any flxPathIsSep then rest.tail else rest
  if path = dot ∨ below = [] then [] else below.splitOnP flxPathIsSep

/-- No component is undone by the next one. -/
def NoneUndone (parts : List Text) : Prop :=
  ∀ front name back, parts = front ++ name :: dotDot :: back → name = dotDot

/-- `PATH.normalize` makes a path that is not empty, has no component that could be left out, and
stays when it is normalized again. -/
structure NormalForm (path : Path) : Prop where
  nonempty : pathNormalize path ≠ []
  moving : ∀ part ∈ components (pathNormalize path), part ≠ [] ∧ part ≠ dot
  noneUndone : NoneUndone (components (pathNormalize path))
  stays : pathNormalize (pathNormalize path) = pathNormalize path

section

variable {parts : List Text}

theorem Spelled.noneUndone (h : Spelled parts) : NoneUndone parts := by
  rintro front name back rfl
  obtain ⟨_, hback⟩ := tidy_append.mp h.tidy
  obtain ⟨_, _, _, _, _, hup, _⟩ := hback
  have hboth := (Bool.and_eq_true _ _ ▸ hup rfl : _ ∧ _)
  exact of_decide_eq_true hboth.2

/-- Spelled parts are the components of the path they spell. -/
theorem splitOnP_intercalate (h : Spelled parts) (hne : parts ≠ []) :
  (['/'].intercalate parts).splitOnP flxPathIsSep = parts
  := by
  have hjoin := intercalate_ne_nil hne fun part hpart => (h.tidy.ne hpart).1
  have hback := h.back_not_mem false
  have hrender : render false parts = ['/'].intercalate parts := by simp [render, hjoin]
  rw [hrender] at hback
  rw [splitOnP_of_back hback]
  exact List.splitOn_intercalate '/' h.slash_not_mem hne

theorem components_slash (drive : Text) (h : Spelled parts)
    (hdrive : pathDrive (drive ++ '/' :: ['/'].intercalate parts) = drive) :
  components (drive ++ '/' :: ['/'].intercalate parts) = parts
  := by
  have hdot : ¬ drive ++ '/' :: ['/'].intercalate parts = dot := by
    intro heq
    have hmem : '/' ∈ dot := by
      rw [← heq]
      exact List.mem_append_right _ List.mem_cons_self
    exact absurd hmem (by decide)
  have hsep : flxPathIsSep '/' = true := rfl
  unfold components
  rw [hdrive, List.drop_left]
  simp only [List.head?_cons, Option.any_some, hsep, if_true, List.tail_cons, hdot, false_or]
  rcases Decidable.eq_or_ne parts [] with rfl | hne
  · rfl
  · have hjoin := intercalate_ne_nil hne fun part hpart => (h.tidy.ne hpart).1
    rw [if_neg hjoin, splitOnP_intercalate h hne]

theorem components_relative (h : Spelled parts) (hdrive : pathDrive (render false parts) = []) :
  components (render false parts) = parts
  := by
  cases parts with
  | nil => rfl
  | cons first rest =>
    have hjoin := intercalate_ne_nil (List.cons_ne_nil first rest)
      fun part hpart => (h.tidy.ne hpart).1
    have hrender : render false (first :: rest) = ['/'].intercalate (first :: rest) := by
      simp [render, hjoin]
    have hsplit := splitOnP_intercalate h (List.cons_ne_nil first rest)
    have hdot : ¬ ['/'].intercalate (first :: rest) = dot := by
      intro heq
      rw [heq] at hsplit
      have hfirst : [dot] = first :: rest := hsplit
      exact (h.tidy.ne List.mem_cons_self).2 (List.cons.inj hfirst).1.symm
    have hhead : (['/'].intercalate (first :: rest)).head?.any flxPathIsSep = false := by
      obtain ⟨c, first, rfl⟩ := List.exists_cons_of_ne_nil (h.tidy.ne List.mem_cons_self).1
      have hc := h.sepFree _ List.mem_cons_self c List.mem_cons_self
      cases rest <;> simp [List.intercalate_cons_cons, hc]
    rw [hrender] at hdrive ⊢
    unfold components
    rw [hdrive, List.length_nil, List.drop_zero]
    simp only [hhead, Bool.false_eq_true, if_false, hdot, hjoin, or_self, hsplit]

end

/-- A path whose normalized one has spelled components and stays is in normal form. -/
theorem NormalForm.of_components {path : Path} {parts : List Text} (h : Spelled parts)
    (hne : pathNormalize path ≠ []) (hparts : components (pathNormalize path) = parts)
    (hstays : pathNormalize (pathNormalize path) = pathNormalize path) :
  NormalForm path
  := by
  constructor
  · exact hne
  · rw [hparts]
    exact fun part hpart => h.tidy.ne hpart
  · rw [hparts]
    exact h.noneUndone
  · exact hstays

theorem normalForm_of_drive {path : Path} {c : Char} (hc : c.isAlpha = true)
    (h : pathDrive path = [c, ':']) :
  NormalForm path
  := by
  have hspelled := spelled_normal path
  have hnormal := pathNormalize_of_drive h
  have hdrive := pathDrive_cons hc ('/' :: ['/'].intercalate (normal (driveParts path)))
  apply NormalForm.of_components hspelled
  · rw [hnormal]
    exact List.cons_ne_nil _ _
  · rw [hnormal]
    exact components_slash [c, ':'] hspelled hdrive
  · rw [hnormal, pathNormalize_drive hc hspelled]

theorem normalForm_of_root {path : Path} (hdrive : pathDrive path = [])
    (habs : flxPathIsAbsolute path = true) :
  NormalForm path
  := by
  have hspelled := spelled_normal path
  have hnormal := pathNormalize_of_no_drive hdrive
  rw [habs] at hnormal
  have hrender : render true (normal (driveParts path)) =
      [] ++ '/' :: ['/'].intercalate (normal (driveParts path)) := by simp [render]
  apply NormalForm.of_components hspelled
  · rw [hnormal]
    exact render_ne_nil _ _
  · rw [hnormal, hrender]
    exact components_slash [] hspelled (pathDrive_slash _)
  · rw [hnormal]
    apply pathNormalize_render true hspelled
    rw [hrender]
    exact pathDrive_slash _

theorem driveParts_of_relative {path : Path} (h : flxPathIsAbsolute path = false) :
  pathDrive path = [] ∧ driveParts path = path.splitOnP flxPathIsSep
  := by
  have hdrive : pathDrive path = [] := by
    rw [flxPathIsAbsolute, Bool.or_eq_false_iff] at h
    simpa using h.2
  refine ⟨hdrive, ?_⟩
  rw [driveParts, hdrive]
  rfl

/-- A relative path in whose normalized one a drive comes first stays only if a slash follows. -/
theorem stays_drive_iff {first : Text} {rest : List Text} (h : Spelled (first :: rest))
    (hdrive : pathDrive first ≠ []) :
  pathNormalize (render false (first :: rest)) = render false (first :: rest) ↔
    rest ≠ [] ∧ first.length ≤ 2
  := by
  obtain ⟨c, hc, hfirst⟩ := (pathDrive_eq first).resolve_left hdrive
  obtain ⟨tail, rfl⟩ := eq_of_pathDrive hfirst
  have hne : c :: ':' :: tail ≠ [] := List.cons_ne_nil _ _
  have hstart := pathDrive_render hne rest
  rw [hfirst] at hstart
  rw [pathNormalize_of_drive hstart]
  cases rest with
  | nil =>
    rw [render_singleton false hne]
    constructor
    · intro heq
      -- the slash behind the drive would be a separator in the part
      have htail := (List.cons.inj (List.cons.inj heq).2).2
      have hsep := h.sepFree _ List.mem_cons_self '/' (by rw [← htail]; simp)
      cases hsep
    · rintro ⟨hrest, -⟩
      exact absurd rfl hrest
  | cons next rest =>
    have hrender : render false ((c :: ':' :: tail) :: next :: rest) =
        c :: ':' :: (tail ++ '/' :: ['/'].intercalate (next :: rest)) := by
      simp [render, List.intercalate_cons_cons]
    cases tail with
    | nil =>
      have hup : ([c, ':'] : Text) ≠ dotDot := by
        intro heq
        cases heq
      have hstay := pathNormalize_drive hc (h.tail hup)
      rw [hrender, List.nil_append]
      apply iff_of_true _ ⟨List.cons_ne_nil _ _, le_refl 2⟩
      rw [← pathNormalize_of_drive (pathDrive_cons hc _)]
      exact hstay
    | cons d tail =>
      rw [hrender]
      constructor
      · intro heq
        have hd : '/' = d := (List.cons.inj (List.cons.inj (List.cons.inj heq).2).2).1
        have hsep := h.sepFree _ List.mem_cons_self '/' (by rw [← hd]; simp)
        cases hsep
      · rintro ⟨-, hlength⟩
        simp at hlength

theorem ne_dotDot_of_drive {part : Text} (h : pathDrive part ≠ []) : part ≠ dotDot := by
  rintro rfl
  exact h rfl

/-- A relative path whose first name starts with a drive leads down along its names. -/
theorem below_of_drive {parts : List Text} {first : Text} {rest : List Text}
    (hnormal : normal parts = first :: rest) (hdrive : pathDrive first ≠ []) :
  Below parts (first :: rest)
  := by
  have hfirst := ne_dotDot_of_drive hdrive
  obtain ⟨_, _, _, hrest⟩ : Tidy true (first :: rest) := hnormal ▸ tidy_normal parts
  rw [decide_eq_false hfirst] at hrest
  apply below_iff.mpr
  refine ⟨hnormal, ?_⟩
  rw [List.mem_cons, not_or]
  exact ⟨Ne.symm hfirst, Tidy.not_mem_dotDot hrest⟩

theorem normalForm_of_relative {path : Path} (habs : flxPathIsAbsolute path = false)
    (hdrive : pathDrive (render false (normal (driveParts path))) = []) :
  NormalForm path
  := by
  have hspelled := spelled_normal path
  have hnormal := pathNormalize_of_no_drive (driveParts_of_relative habs).1
  rw [habs] at hnormal
  apply NormalForm.of_components hspelled
  · rw [hnormal]
    exact render_ne_nil _ _
  · rw [hnormal]
    exact components_relative hspelled hdrive
  · rw [hnormal]
    exact pathNormalize_render false hspelled hdrive

/-- A drive in the first place of a normalized relative path is that of a normal form if a slash
follows. -/
theorem normalForm_of_exposed {path : Path} (habs : flxPathIsAbsolute path = false) {first : Text}
    {rest : List Text} (hnames : normal (driveParts path) = first :: rest)
    (hdrive : pathDrive first ≠ []) :
  NormalForm path ↔ rest ≠ [] ∧ first.length ≤ 2
  := by
  have hspelled := spelled_normal path
  have hnormal := pathNormalize_of_no_drive (driveParts_of_relative habs).1
  rw [habs, hnames] at hnormal
  rw [hnames] at hspelled
  have hiff := stays_drive_iff hspelled hdrive
  rw [← hiff, ← hnormal]
  constructor
  · exact fun h => h.stays
  · intro hstays
    obtain ⟨hne, hlength⟩ := hiff.mp (by rwa [← hnormal])
    obtain ⟨c, hc, hfirst⟩ := (pathDrive_eq first).resolve_left hdrive
    obtain ⟨tail, rfl⟩ := eq_of_pathDrive hfirst
    obtain rfl : tail = [] := by
      rw [List.length_cons, List.length_cons] at hlength
      exact List.length_eq_zero_iff.mp (by omega)
    obtain ⟨next, rest, rfl⟩ := List.exists_cons_of_ne_nil hne
    have hrender : render false ([c, ':'] :: next :: rest) =
        [c, ':'] ++ '/' :: ['/'].intercalate (next :: rest) := by
      simp [render, List.intercalate_cons_cons]
    apply NormalForm.of_components (hspelled.tail (ne_dotDot_of_drive hdrive)) _ _ hstays
    · rw [hnormal]
      exact render_ne_nil _ _
    · rw [hnormal, hrender]
      apply components_slash
      · exact hspelled.tail (ne_dotDot_of_drive hdrive)
      · exact pathDrive_cons hc _

/-- `PATH.normalize` gives a normal form if and only if it exposes no drive. -/
theorem normalForm_iff (path : Path) : NormalForm path ↔ ¬ ExposesDrive path := by
  by_cases habs : flxPathIsAbsolute path = true
  · have hrooted : NormalForm path := by
      rcases pathDrive_eq path with hdrive | ⟨c, hc, hdrive⟩
      · exact normalForm_of_root hdrive habs
      · exact normalForm_of_drive hc hdrive
    apply iff_of_true hrooted
    rintro ⟨hrelative, -⟩
    rw [habs] at hrelative
    cases hrelative
  · rw [Bool.not_eq_true] at habs
    have hparts := (driveParts_of_relative habs).2
    cases hnames : normal (driveParts path) with
    | nil =>
      apply iff_of_true
      · apply normalForm_of_relative habs
        rw [hnames]
        rfl
      · rintro ⟨-, first, rest, hbelow, -⟩
        rw [← hparts, below_iff, hnames] at hbelow
        cases hbelow.1
    | cons first rest =>
      have hfirst : first ≠ [] := by
        have hmem : first ∈ normal (driveParts path) := by
          rw [hnames]
          exact List.mem_cons_self
        exact (mem_normal hmem).2.1
      by_cases hdrive : pathDrive first = []
      · apply iff_of_true
        · apply normalForm_of_relative habs
          rw [hnames, pathDrive_render hfirst, hdrive]
        · rintro ⟨-, first', rest', hbelow, hdrive', -⟩
          rw [← hparts, below_iff, hnames] at hbelow
          obtain ⟨⟨⟩, -⟩ := hbelow
          exact hdrive' hdrive
      · rw [normalForm_of_exposed habs hnames hdrive]
        constructor
        · rintro ⟨hne, hlength⟩ ⟨-, first', rest', hbelow, -, hslash⟩
          rw [← hparts, below_iff, hnames] at hbelow
          obtain ⟨⟨⟩, -⟩ := hbelow
          rcases hslash with hnil | hlong
          · exact hne hnil
          · omega
        · intro hexposes
          by_contra hstays
          apply hexposes
          refine ⟨habs, first, rest, ?_, hdrive, ?_⟩
          · rw [← hparts]
            exact below_of_drive hnames hdrive
          · rw [not_and_or, not_not, not_le] at hstays
            exact hstays

/-- The normalized path of `./C:x` is `C:x`, whose normalized path is `C:/x`. -/
theorem not_normalForm : ¬ ∀ path : Path, '\x00' ∉ path → NormalForm path := by
  intro h
  have hstays := (h ['.', '/', 'C', ':', 'x'] (by decide)).stays
  exact absurd hstays (by decide)

end Caster.Sys
