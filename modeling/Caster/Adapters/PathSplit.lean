import Caster.Adapters.PathNormal

/-!
# Directory and name of a path

When `PATH.join` makes of `PATH.parent` and `PATH.name` of a path the normalized path again.  It
does not for a drive without a part behind it, and for a relative path whose normalized one starts
with a drive and a longer name.
-/

namespace Caster.Sys

open Driver (Text Path)
open UnixPath

/-- The directory and the name of a path, joined, are the normalized path. -/
def SplitsBack (path : Path) : Prop :=
  pathJoin [pathParent path, pathName path] = pathNormalize path

/-- A path is a drive without names behind it, or it is relative and leads down along more than one
name, the first of which starts with a drive and does not end with it. -/
def LosesDrive (path : Path) : Prop :=
  (pathDrive path ≠ [] ∧ Below (driveParts path) []) ∨
    (flxPathIsAbsolute path = false ∧
      ∃ first rest, Below (path.splitOnP flxPathIsSep) (first :: rest) ∧ rest ≠ [] ∧
        pathDrive first ≠ [] ∧ 2 < first.length)

/-! ### Joining -/

theorem pathJoin_pair {front last : Path} (hfront : front ≠ []) (hlast : last ≠ []) :
  pathJoin [front, last] = pathNormalize (front ++ '/' :: last)
  := by
  have hfirst : joinPart [] front = front := by rw [joinPart, if_neg hfront, if_pos rfl]
  have hsecond : joinPart front last = front ++ '/' :: last := by
    rw [joinPart, if_neg hlast, if_neg hfront]
  rw [pathJoin, List.foldl_cons, List.foldl_cons, List.foldl_nil, hfirst, hsecond]

section

variable {path : Path} {last : Text}

/-- The end of a path is its last part. -/
structure EndsIn (path pre last : Path) : Prop where
  eq : pathNormalize path = pre ++ last
  nonempty : last ≠ []
  sepFree : SepFree last
  sep : ∀ c ∈ pre.getLast?, flxPathIsSep c = true

theorem EndsIn.pathName_eq {pre : Path} (h : EndsIn path pre last) : pathName path = last := by
  rw [pathName, h.eq]
  exact after_last pre h.nonempty (fun c hc => h.sepFree c (List.mem_reverse.mp hc)) h.sep

theorem EndsIn.pathParent_eq {pre : Path} (h : EndsIn path pre last) :
  pathParent path = if pre = [] then ['.'] else if pre.length = 1 then ['/'] else pre.dropLast
  := by
  unfold pathParent
  dsimp only
  rw [h.eq, before_last pre h.nonempty (fun c hc => h.sepFree c (List.mem_reverse.mp hc)) h.sep]

/-- A path behind a directory is its directory and its name with a slash between them. -/
theorem EndsIn.joins_iff {up : Path} (h : EndsIn path (up ++ ['/']) last) (hup : up ≠ []) :
  SplitsBack path ↔ pathNormalize (pathNormalize path) = pathNormalize path
  := by
  have hparent : pathParent path = up := by
    rw [h.pathParent_eq, if_neg (by simp), if_neg (by simpa using hup), List.dropLast_concat]
  rw [SplitsBack, hparent, h.pathName_eq, pathJoin_pair hup h.nonempty, h.eq, List.append_assoc]
  rfl

theorem push_nil {part : Text} (h : Tidy true [part]) : push [] part = [part] := by
  have hnormal := h.normal_eq
  exact hnormal

theorem split_part {part : Text} (h : '/' ∉ part) : split part = [part] := by
  have hsplit := List.splitOn_intercalate '/' (List.forall_mem_singleton.mpr h)
    (List.cons_ne_nil part [])
  rw [List.intercalate_singleton] at hsplit
  exact hsplit

/-- One part behind a slash and something that does not move. -/
theorem normal_split_part {front : Text} (hfront : normal (split front) = []) (h : Spelled [last]) :
  normal (split (front ++ '/' :: last)) = [last]
  := by
  rw [split_join, split_part (h.slash_not_mem last List.mem_cons_self), normal_concat, hfront,
    push_nil h.tidy]

/-- A path of one part. -/
theorem EndsIn.splitsBack_relative (h : EndsIn path [] last) (hspelled : Spelled [last]) :
  SplitsBack path
  := by
  have hback : '\\' ∉ '.' :: '/' :: last := by
    have hback := hspelled.back_not_mem false
    rw [render_singleton false h.nonempty] at hback
    simpa using hback
  have hslashed : Slashed ('.' :: '/' :: last) := ⟨hback, rfl⟩
  rw [SplitsBack, h.pathName_eq, h.pathParent_eq, if_pos rfl,
    pathJoin_pair (List.cons_ne_nil _ _) h.nonempty, h.eq]
  show pathNormalize ('.' :: '/' :: last) = last
  rw [hslashed.pathNormalize_eq, simplify]
  show render false (normal (split (['.'] ++ '/' :: last))) = last
  rw [normal_split_part rfl hspelled, render_singleton false h.nonempty]
  rfl

/-- A path of one part behind the root. -/
theorem EndsIn.splitsBack_root (h : EndsIn path ['/'] last) (hspelled : Spelled [last]) :
  SplitsBack path
  := by
  have hback : '\\' ∉ '/' :: '/' :: last := by
    have hback := hspelled.back_not_mem false
    rw [render_singleton false h.nonempty] at hback
    simpa using hback
  have hslashed : Slashed ('/' :: '/' :: last) := ⟨hback, pathDrive_slash _⟩
  rw [SplitsBack, h.pathName_eq, h.pathParent_eq, if_neg (List.cons_ne_nil _ _),
    if_pos (List.length_singleton), pathJoin_pair (List.cons_ne_nil _ _) h.nonempty, h.eq]
  show pathNormalize ('/' :: '/' :: last) = '/' :: last
  rw [hslashed.pathNormalize_eq, simplify]
  show render true (normal (split (['/'] ++ '/' :: last))) = '/' :: last
  rw [normal_split_part rfl hspelled, render_singleton true h.nonempty]
  rfl

end

/-! ### The last part -/

/-- The last of the parts that are spelled behind a start is at the end of the path. -/
theorem endsIn_of_spelled {path start : Path} {front : List Text} {last : Text}
    (hspelled : Spelled (front ++ [last]))
    (hnormal : pathNormalize path = start ++ ['/'].intercalate (front ++ [last]))
    (hne : front ≠ []) :
  EndsIn path (start ++ ['/'].intercalate front ++ ['/']) last
  := by
  have hlast : last ∈ front ++ [last] := List.mem_append_right _ (List.mem_singleton_self last)
  constructor
  · rw [hnormal, intercalate_concat hne]
    simp
  · exact (hspelled.tidy.ne hlast).1
  · exact hspelled.sepFree last hlast
  · intro c hc
    rw [List.getLast?_concat] at hc
    cases hc
    rfl

/-- A single part is at the end of the path behind the start. -/
theorem endsIn_of_singleton {path start : Path} {last : Text} (hspelled : Spelled [last])
    (hnormal : pathNormalize path = start ++ last)
    (hstart : ∀ c ∈ start.getLast?, flxPathIsSep c = true) :
  EndsIn path start last
  := ⟨hnormal, (hspelled.tidy.ne List.mem_cons_self).1, hspelled.sepFree last List.mem_cons_self,
    hstart⟩

theorem splitsBack_of_drive {path : Path} {c : Char} (hc : c.isAlpha = true)
    (hdrive : pathDrive path = [c, ':']) :
  SplitsBack path ↔ normal (driveParts path) ≠ []
  := by
  have hnormal := pathNormalize_of_drive hdrive
  have hspelled := spelled_normal path
  have hstays := pathNormalize_drive hc hspelled
  rw [← hnormal] at hstays
  rcases List.eq_nil_or_concat (normal (driveParts path)) with hnil | ⟨front, last, hparts⟩
  · -- neither half of the drive has its slash
    have hkept : pathNormalize path = [c, ':', '/'] := by rw [hnormal, hnil]; rfl
    have hsep : flxPathIsSep c = false := by
      unfold flxPathIsSep
      rw [decide_eq_false]
      rintro (rfl | rfl)
      · cases hc
      · cases hc
    have htrim : trimSeps [c, ':', '/'] = [c, ':'] := rfl
    have hcolon : flxPathIsSep ':' = false := rfl
    have hparent : pathParent path = ['.'] := by
      unfold pathParent
      dsimp only
      rw [hkept, htrim]
      simp [hsep, hcolon]
    have hname : pathName path = [c, ':'] := by
      unfold pathName
      rw [hkept, htrim]
      simp [hsep, hcolon]
    have hback : '\\' ∉ '.' :: '/' :: [c, ':'] := by
      have hne : '\\' ≠ c := by
        rintro rfl
        cases hc
      simp [hne]
    have hslash : '/' ∉ [c, ':'] := by
      have hne : '/' ≠ c := by
        rintro rfl
        cases hc
      simp [hne]
    have hslashed : Slashed ('.' :: '/' :: [c, ':']) := ⟨hback, rfl⟩
    apply iff_of_false _ (by simp [hnil])
    rw [SplitsBack, hparent, hname, pathJoin_pair (by simp) (by simp), hkept]
    show pathNormalize ('.' :: '/' :: [c, ':']) ≠ [c, ':', '/']
    rw [hslashed.pathNormalize_eq, simplify]
    show render false (normal (split (['.'] ++ '/' :: [c, ':']))) ≠ [c, ':', '/']
    have hmoves : IsName [c, ':'] := ⟨by simp, by simp [dot], by simp [dotDot], hslash⟩
    have hstay : normal (split ['.']) = [] := rfl
    rw [split_join, split_part hslash, normal_concat, push_name hmoves, hstay, List.nil_append,
      render_singleton false hmoves.1]
    simp
  · rw [List.concat_eq_append] at hparts
    rw [hparts] at hnormal hspelled
    apply iff_of_true _ (by simp [hparts])
    rcases Decidable.eq_or_ne front [] with rfl | hne
    · have hends : EndsIn path ([c, ':'] ++ ['/']) last :=
        endsIn_of_singleton hspelled (by rw [hnormal]; simp) (by simp [flxPathIsSep])
      exact (hends.joins_iff (List.cons_ne_nil _ _)).mpr hstays
    · have hends := @endsIn_of_spelled path [c, ':', '/'] front last hspelled hnormal hne
      exact (hends.joins_iff (by simp)).mpr hstays

theorem splitsBack_of_root {path : Path} (hdrive : pathDrive path = [])
    (habs : flxPathIsAbsolute path = true) :
  SplitsBack path
  := by
  have hnormal := pathNormalize_of_no_drive hdrive
  have hspelled := spelled_normal path
  rw [habs] at hnormal
  rcases List.eq_nil_or_concat (normal (driveParts path)) with hnil | ⟨front, last, hparts⟩
  · have hroot : pathNormalize path = ['/'] := by rw [hnormal, hnil]; rfl
    have hparent : pathParent path = ['/'] := by unfold pathParent; rw [hroot]; rfl
    have hname : pathName path = [] := by unfold pathName; rw [hroot]; rfl
    rw [SplitsBack, hparent, hname, hroot]
    rfl
  · rw [List.concat_eq_append] at hparts
    rw [hparts] at hnormal hspelled
    have hrender : render true (front ++ [last]) =
        ['/'] ++ ['/'].intercalate (front ++ [last]) := by
      simp [render]
    have hstays : pathNormalize (pathNormalize path) = pathNormalize path := by
      rw [hnormal]
      apply pathNormalize_render true hspelled
      rw [hrender]
      exact pathDrive_slash _
    rcases Decidable.eq_or_ne front [] with rfl | hne
    · apply EndsIn.splitsBack_root _ hspelled
      exact endsIn_of_singleton hspelled (by rw [hnormal, hrender]; simp) (by simp [flxPathIsSep])
    · have hends := endsIn_of_spelled hspelled (hnormal.trans hrender) hne
      exact (hends.joins_iff (by simp)).mpr hstays

theorem splitsBack_of_relative {path : Path} (habs : flxPathIsAbsolute path = false)
    {first : Text} {rest : List Text} (hnames : normal (driveParts path) = first :: rest) :
  SplitsBack path ↔ rest = [] ∨ pathNormalize (pathNormalize path) = pathNormalize path
  := by
  have hnormal := pathNormalize_of_no_drive (driveParts_of_relative habs).1
  have hspelled := spelled_normal path
  rw [habs, hnames] at hnormal
  rw [hnames] at hspelled
  have hjoin := intercalate_ne_nil (List.cons_ne_nil first rest)
    fun part hpart => (hspelled.tidy.ne hpart).1
  have hrender : render false (first :: rest) = [] ++ ['/'].intercalate (first :: rest) := by
    simp [render, hjoin]
  rw [hrender] at hnormal
  rcases List.eq_nil_or_concat rest with rfl | ⟨front, last, hparts⟩
  · apply iff_of_true _ (Or.inl rfl)
    apply EndsIn.splitsBack_relative _ hspelled
    exact endsIn_of_singleton hspelled (by rw [hnormal]; simp) (by simp)
  · rw [List.concat_eq_append] at hparts
    rw [hparts, ← List.cons_append] at hnormal hspelled
    have hends := endsIn_of_spelled hspelled hnormal (List.cons_ne_nil first front)
    have hup : [] ++ ['/'].intercalate (first :: front) ≠ [] :=
      intercalate_ne_nil (List.cons_ne_nil first front)
        fun part hpart => (hspelled.tidy.ne (List.mem_append_left _ hpart)).1
    rw [hends.joins_iff hup, hparts]
    simp

/-- `PATH.join([PATH.parent(p), PATH.name(p)])` is `PATH.normalize(p)` if and only if no drive is
lost. -/
theorem splitsBack_iff (path : Path) : SplitsBack path ↔ ¬ LosesDrive path := by
  by_cases habs : flxPathIsAbsolute path = true
  · rcases pathDrive_eq path with hdrive | ⟨c, hc, hdrive⟩
    · apply iff_of_true (splitsBack_of_root hdrive habs)
      rintro (⟨hsome, -⟩ | ⟨hrelative, -⟩)
      · exact hsome hdrive
      · rw [habs] at hrelative
        cases hrelative
    · have hbelow : Below (driveParts path) [] ↔ normal (driveParts path) = [] := by
        rw [below_iff]
        simp
      rw [splitsBack_of_drive hc hdrive, LosesDrive, hbelow]
      simp [hdrive, habs]
  · rw [Bool.not_eq_true] at habs
    obtain ⟨hdrive, hparts⟩ := driveParts_of_relative habs
    cases hnames : normal (driveParts path) with
    | nil =>
      have hdot : pathNormalize path = ['.'] := by
        rw [pathNormalize_of_no_drive hdrive, habs, hnames]
        rfl
      have hparent : pathParent path = ['.'] := by unfold pathParent; rw [hdot]; rfl
      have hname : pathName path = ['.'] := by unfold pathName; rw [hdot]; rfl
      apply iff_of_true
      · rw [SplitsBack, hparent, hname, hdot]
        rfl
      · rintro (⟨hsome, -⟩ | ⟨-, first, rest, hbelow, -⟩)
        · exact hsome hdrive
        · rw [← hparts, below_iff, hnames] at hbelow
          cases hbelow.1
    | cons first rest =>
      have hspelled := spelled_normal path
      rw [hnames] at hspelled
      have hfirst := (hspelled.tidy.ne List.mem_cons_self).1
      have hstays : pathNormalize (pathNormalize path) = pathNormalize path ↔
          pathDrive first = [] ∨ rest ≠ [] ∧ first.length ≤ 2 := by
        rw [pathNormalize_of_no_drive hdrive, habs, hnames]
        by_cases hexposed : pathDrive first = []
        · apply iff_of_true _ (Or.inl hexposed)
          exact pathNormalize_render false hspelled ((pathDrive_render hfirst rest).trans hexposed)
        · rw [stays_drive_iff hspelled hexposed]
          simp [hexposed]
      rw [splitsBack_of_relative habs hnames, hstays]
      constructor
      · rintro hsplits (⟨hsome, -⟩ | ⟨-, first', rest', hbelow, hne, hexposed, hlong⟩)
        · exact hsome hdrive
        · rw [← hparts, below_iff, hnames] at hbelow
          obtain ⟨⟨⟩, -⟩ := hbelow
          rcases hsplits with hnil | hnil | ⟨-, hlength⟩
          · exact hne hnil
          · exact hexposed hnil
          · omega
      · intro hkeeps
        by_contra hlost
        rw [not_or, not_or, not_and_or, not_not, not_le] at hlost
        obtain ⟨hne, hexposed, hlong⟩ := hlost
        apply hkeeps
        right
        refine ⟨habs, first, rest, ?_, hne, hexposed, hlong.resolve_left hne⟩
        rw [← hparts]
        exact below_of_drive hnames hexposed

/-- The normalized path of `C:` is `C:/`, whose directory is `.` and whose name is `C:`. -/
theorem not_splitsBack_drive : ¬ ∀ path : Path, '\x00' ∉ path → SplitsBack path := by
  intro h
  have hsplits := h ['C', ':'] (by decide)
  rw [SplitsBack] at hsplits
  exact absurd hsplits (by decide)

end Caster.Sys
