import Caster.Library.UnixPath

/-!
# Normal paths

A path none of whose parts can be left out: steps up, and then names.  Leaving out parts ends
with such a path, and changes no other.
-/

namespace UnixPath

/-- Parts each of which moves and is not undone: steps up, and then names. -/
def Tidy : Bool → List Part → Prop
  | _, [] => True
  | up, part :: parts =>
    part ≠ [] ∧ part ≠ dot ∧ (part = dotDot → up = true) ∧ Tidy (up && part = dotDot) parts

/-- Only steps up so far. -/
def upBehind (up : Bool) (parts : List Part) : Bool :=
  parts.foldl (fun up part => up && part = dotDot) up

theorem tidy_append {up : Bool} {parts parts' : List Part} :
  Tidy up (parts ++ parts') ↔ Tidy up parts ∧ Tidy (upBehind up parts) parts'
  := by
  induction parts generalizing up with
  | nil => simp [Tidy, upBehind]
  | cons part parts ih =>
    rw [List.cons_append, Tidy, Tidy, ih]
    simp only [upBehind, List.foldl_cons, and_assoc]

theorem tidy_singleton {up : Bool} {part : Part} :
  Tidy up [part] ↔ part ≠ [] ∧ part ≠ dot ∧ (part = dotDot → up = true)
  := by simp [Tidy]

theorem Tidy.ne {up : Bool} {parts : List Part} (h : Tidy up parts) {part : Part}
    (hpart : part ∈ parts) :
  part ≠ [] ∧ part ≠ dot
  := by
  induction parts generalizing up with
  | nil => exact absurd hpart List.not_mem_nil
  | cons first parts ih =>
    obtain ⟨hnil, hdot, _, hrest⟩ := h
    rcases List.mem_cons.mp hpart with rfl | hpart
    · exact ⟨hnil, hdot⟩
    · exact ih hrest hpart

/-- Behind a step up there are only steps up before. -/
theorem Tidy.upBehind {parts : List Part} (h : Tidy true parts)
    (hlast : parts = [] ∨ parts.getLast? = some dotDot) :
  upBehind true parts = true
  := by
  rcases List.eq_nil_or_concat parts with rfl | ⟨front, last, hparts⟩
  · rfl
  · rw [List.concat_eq_append] at hparts
    subst hparts
    have heq : last = dotDot := by simpa using hlast
    obtain ⟨_, hup⟩ := tidy_append.mp h
    have hfront := (tidy_singleton.mp hup).2.2 heq
    rw [UnixPath.upBehind, List.foldl_append]
    rw [UnixPath.upBehind] at hfront
    rw [hfront, heq]
    rfl

theorem tidy_push {parts : List Part} (h : Tidy true parts) (part : Part) :
  Tidy true (push parts part)
  := by
  unfold push
  split_ifs with hstay hup hback
  · exact h
  · obtain ⟨front, last, hparts⟩ := (List.eq_nil_or_concat parts).resolve_left hback.1
    rw [List.concat_eq_append] at hparts
    rw [hparts] at h ⊢
    rw [List.dropLast_concat]
    exact (tidy_append.mp h).1
  · have hlast : parts = [] ∨ parts.getLast? = some dotDot := by
      rw [not_and_or, not_not, not_not] at hback
      exact hback
    rw [not_or] at hstay
    exact tidy_append.mpr ⟨h, tidy_singleton.mpr ⟨hstay.1, hstay.2, fun _ => h.upBehind hlast⟩⟩
  · rw [not_or] at hstay
    exact tidy_append.mpr ⟨h, tidy_singleton.mpr ⟨hstay.1, hstay.2, fun heq => absurd heq hup⟩⟩

theorem tidy_normal (parts : List Part) : Tidy true (normal parts) := by
  induction parts using List.reverseRecOn with
  | nil => exact trivial
  | append_singleton parts part ih =>
    rw [normal_concat]
    exact tidy_push ih part

/-- Tidy parts stay. -/
theorem Tidy.normal_eq {parts : List Part} (h : Tidy true parts) : normal parts = parts := by
  induction parts using List.reverseRecOn with
  | nil => rfl
  | append_singleton parts part ih =>
    obtain ⟨hfront, hpart⟩ := tidy_append.mp h
    obtain ⟨hnil, hdot, hup⟩ := tidy_singleton.mp hpart
    rw [normal_concat, ih hfront, push, if_neg (not_or.mpr ⟨hnil, hdot⟩)]
    split_ifs with heq hback
    · -- a name is not undone
      have hbehind := hup heq
      obtain ⟨front, last, hparts⟩ := (List.eq_nil_or_concat parts).resolve_left hback.1
      rw [List.concat_eq_append] at hparts
      rw [hparts, UnixPath.upBehind, List.foldl_append] at hbehind
      have hlast : last = dotDot := by
        have hboth := (Bool.and_eq_true _ _ ▸ hbehind : _ ∧ _)
        exact of_decide_eq_true hboth.2
      exact absurd (by rw [hparts, hlast, List.getLast?_concat]) hback.2
    · rfl
    · rfl


instance decidableTidy : ∀ (up : Bool) (parts : List Part), Decidable (Tidy up parts)
  | _, [] => isTrue trivial
  | up, part :: parts =>
    have := decidableTidy (up && part = dotDot) parts
    inferInstanceAs (Decidable (_ ∧ _ ∧ _ ∧ _))

/-- The parts of a path that is not shorter without those that can be left out. -/
def Settled : List Part → Prop
  | [[]] => False
  | [] :: parts => parts = [[]] ∨ Tidy true parts
  | parts => parts = [dot] ∨ Tidy true parts

/-! ### Texts -/

/-- The path behind the top. -/
def relative (path : List Char) : List Char := if isAbsolute path then path.tail else path

/-- The only part of a path that does not move. -/
def here (absolute : Bool) : Part := if absolute then [] else dot

theorem render_nil (absolute : Bool) :
  render absolute [] = (if absolute then ['/'] else []) ++ here absolute
  := by cases absolute <;> rfl

theorem join_split (path : List Char) : ['/'].intercalate (split path) = path :=
  List.intercalate_splitOn '/'

/-- Parts spell a normal path if and only if none of them can be left out. -/
theorem render_normal_iff (absolute : Bool) {parts : List Part} (hne : parts ≠ [])
    (hparts : ∀ part ∈ parts, '/' ∉ part) :
  (if absolute then ['/'] else []) ++ ['/'].intercalate parts = render absolute (normal parts) ↔
    parts = [here absolute] ∨ Tidy true parts
  := by
  have hinj {parts' : List Part} (hne' : parts' ≠ []) (hparts' : ∀ part ∈ parts', '/' ∉ part)
      (heq : ['/'].intercalate parts = ['/'].intercalate parts') : parts = parts' := by
    rw [← List.splitOn_intercalate '/' hparts hne, heq, List.splitOn_intercalate '/' hparts' hne']
  constructor
  · intro heq
    rcases Decidable.eq_or_ne (normal parts) [] with hnil | hsome
    · rw [hnil, render_nil, List.append_cancel_left_eq] at heq
      left
      apply hinj (List.cons_ne_nil _ _) _ (heq.trans (List.intercalate_singleton).symm)
      intro part hpart
      rw [List.mem_singleton.mp hpart]
      cases absolute <;> decide
    · right
      have hnormal : ∀ part ∈ normal parts, part ≠ [] := fun part hpart => (mem_normal hpart).2.1
      have hjoin := intercalate_ne_nil hsome hnormal
      rw [render, if_neg fun h => hjoin (List.append_eq_nil_iff.mp h).2, List.append_cancel_left_eq] at heq
      rw [hinj hsome (fun part hpart => hparts part (mem_normal hpart).1) heq]
      exact tidy_normal parts
  · rintro (rfl | htidy)
    · cases absolute <;> rfl
    · have hjoin := intercalate_ne_nil hne fun part hpart => (htidy.ne hpart).1
      rw [htidy.normal_eq, render, if_neg fun h => hjoin (List.append_eq_nil_iff.mp h).2]

/-- The parts of a normal path. -/
theorem normal_split_render (absolute : Bool) {parts : List Part} (h : Tidy true parts)
    (hparts : ∀ part ∈ parts, '/' ∉ part) :
  normal (split (render absolute parts)) = parts
  := by
  have hboth : ∀ part ∈ parts, part ≠ [] ∧ '/' ∉ part :=
    fun part hpart => ⟨(h.ne hpart).1, hparts part hpart⟩
  rcases Decidable.eq_or_ne parts [] with rfl | hne
  · cases absolute <;> rfl
  · cases absolute with
    | false => rw [split_render_relative hboth hne, h.normal_eq]
    | true =>
      rw [split_render_absolute hboth hne]
      exact h.normal_eq

theorem Tidy.dropLast {up : Bool} {parts : List Part} (h : Tidy up parts) :
  Tidy up parts.dropLast
  := by
  rcases List.eq_nil_or_concat parts with rfl | ⟨front, last, rfl⟩
  · exact h
  · rw [List.concat_eq_append] at h ⊢
    rw [List.dropLast_concat]
    exact (tidy_append.mp h).1

theorem split_relative (path : List Char) :
  split path = (if isAbsolute path then [[]] else []) ++ split (relative path)
  := by
  unfold relative
  cases path with
  | nil => rfl
  | cons c path =>
    by_cases hc : c = '/'
    · subst hc
      exact split_join [] path
    · simp [isAbsolute, hc]

theorem relative_eq (path : List Char) :
  (if isAbsolute path then ['/'] else []) ++ relative path = path
  := by
  unfold relative
  cases path with
  | nil => rfl
  | cons c path =>
    by_cases hc : c = '/' <;> simp [isAbsolute, hc]

theorem normal_relative (path : List Char) :
  normal (split path) = normal (split (relative path))
  := by
  rw [split_relative]
  cases isAbsolute path <;> rfl

theorem head_split_relative {path : List Char} (hne : path ≠ []) (h : isAbsolute path = false) :
  (split path).head? ≠ some []
  := by
  obtain ⟨c, path, rfl⟩ := List.exists_cons_of_ne_nil hne
  have hc : ¬ c = '/' := by simpa [isAbsolute] using h
  obtain ⟨first, rest, hsplit⟩ := List.exists_cons_of_ne_nil (List.splitOn_ne_nil '/' path)
  rw [split, List.splitOn_cons_eq_if_modifyHead, if_neg (by simpa using hc), hsplit]
  simp

/-- A path stays if and only if its parts do. -/
theorem simplify_eq_iff (path : List Char) : simplify path = path ↔ Settled (split path) := by
  have hiff := render_normal_iff (isAbsolute path) (List.splitOn_ne_nil '/' (relative path))
    fun part hpart => slash_not_mem_split hpart
  rw [show List.splitOn '/' (relative path) = split (relative path) from rfl, join_split, relative_eq,
    ← normal_relative] at hiff
  rw [eq_comm, simplify, hiff]
  rw [split_relative path]
  cases habs : isAbsolute path with
  | true =>
    have hne : split (relative path) ≠ [] := List.splitOn_ne_nil '/' _
    obtain ⟨part, parts, hparts⟩ := List.exists_cons_of_ne_nil hne
    rw [hparts]
    rfl
  | false =>
    have heq : relative path = path := by rw [relative, habs]; rfl
    rw [heq]
    rcases Decidable.eq_or_ne path [] with rfl | hne
    · simp [split, Settled, Tidy, here, dot]
    · have hhead := head_split_relative hne habs
      cases hparts : split path with
      | nil => exact absurd hparts (List.splitOn_ne_nil '/' _)
      | cons part parts =>
        rw [hparts] at hhead
        have hpart : part ≠ [] := by simpa using hhead
        obtain ⟨c, cs, rfl⟩ := List.exists_cons_of_ne_nil hpart
        rfl

/-! ### Places below -/

theorem Tidy.weaken {parts : List Part} (h : Tidy false parts) : Tidy true parts := by
  cases parts with
  | nil => trivial
  | cons part parts =>
    obtain ⟨hnil, hdot, hup, hrest⟩ := h
    have hne : part ≠ dotDot := fun heq => absurd (hup heq) (by decide)
    refine ⟨hnil, hdot, fun _ => rfl, ?_⟩
    rw [decide_eq_false hne]
    exact hrest

/-- Tidy parts are steps up, and then names. -/
theorem Tidy.exists_names {up : Bool} {parts : List Part} (h : Tidy up parts) :
  ∃ k names, parts = List.replicate k dotDot ++ names ∧ dotDot ∉ names ∧ (up = false → k = 0)
  := by
  induction parts generalizing up with
  | nil => exact ⟨0, [], rfl, List.not_mem_nil, fun _ => rfl⟩
  | cons part parts ih =>
    obtain ⟨_, _, hup, hrest⟩ := h
    obtain ⟨k, names, rfl, hnames, hk⟩ := ih hrest
    by_cases heq : part = dotDot
    · refine ⟨k + 1, names, ?_, hnames, ?_⟩
      · rw [heq]
        rfl
      · rintro rfl
        exact absurd (hup heq) (by decide)
    · obtain rfl : k = 0 := hk (by simp [heq])
      refine ⟨0, part :: names, rfl, ?_, fun _ => rfl⟩
      rw [List.mem_cons, not_or]
      exact ⟨Ne.symm heq, hnames⟩

theorem Tidy.not_mem_dotDot {parts : List Part} (h : Tidy false parts) : dotDot ∉ parts := by
  obtain ⟨k, names, hparts, hnames, hk⟩ := h.exists_names
  rw [hk rfl] at hparts
  rw [hparts]
  exact hnames

/-- From everywhere, parts lead down along names. -/
def Below (parts names : List Part) : Prop :=
  ∀ loc, walk (fun _ => true) loc parts = some (loc ++ names)

/-- Among nothing but directories, parts lead somewhere. -/
theorem exists_walk (loc parts : List Part) :
  ∃ found, walk (fun _ => true) loc parts = some found
  := by
  induction parts using List.reverseRecOn with
  | nil => exact ⟨loc, rfl⟩
  | append_singleton parts part ih =>
    obtain ⟨mid, hmid⟩ := ih
    exact ⟨_, walk_concat.mpr ⟨mid, hmid, if_pos rfl⟩⟩

theorem below_names {names : List Part}
    (h : ∀ name ∈ names, name ≠ [] ∧ name ≠ dot ∧ name ≠ dotDot) :
  Below names names
  := by
  intro loc
  induction names using List.reverseRecOn with
  | nil => simp [walk]
  | append_singleton names name ih =>
    obtain ⟨hnil, hdot, hup⟩ := h name (List.mem_append_right _ (List.mem_singleton_self _))
    apply walk_concat.mpr
    refine ⟨loc ++ names, ih fun n hn => h n (List.mem_append_left _ hn), ?_⟩
    rw [step, if_pos rfl, if_neg (not_or.mpr ⟨hnil, hdot⟩), if_neg hup, List.append_assoc]

theorem walk_up (loc : List Part) (name : Part) (k : ℕ) :
  walk (fun _ => true) (loc ++ List.replicate k name) (List.replicate k dotDot) = some loc
  := by
  induction k with
  | zero => simp [walk]
  | succ k ih =>
    have hstep : step (fun _ => true) (loc ++ List.replicate (k + 1) name) dotDot =
        some (loc ++ List.replicate k name) := by
      have hup : ¬ (dotDot = [] ∨ dotDot = dot) := by decide
      rw [step, if_pos rfl, if_neg hup, if_pos rfl, List.replicate_succ', ← List.append_assoc,
        List.dropLast_concat]
    have hcons : List.replicate (k + 1) dotDot = dotDot :: List.replicate k dotDot :=
      List.replicate_succ
    rw [hcons, walk, List.foldlM_cons, hstep]
    exact ih

/-- Parts lead down along the names that are left of them when there is no step up among these. -/
theorem below_iff {parts names : List Part} :
  Below parts names ↔ normal parts = names ∧ dotDot ∉ names
  := by
  have hmoves : ∀ part ∈ normal parts, part ≠ [] ∧ part ≠ dot :=
    fun part hpart => (mem_normal hpart).2
  constructor
  · intro h
    obtain ⟨k, rest, hnormal, hrest, -⟩ := (tidy_normal parts).exists_names
    obtain ⟨name, hname⟩ := Infinite.exists_notMem_finset rest.toFinset
    -- from a place whose last parts have a fresh name, the steps up lead to the top
    have hwalk := walk_normal (h (List.replicate k name))
    rw [hnormal] at hwalk hmoves
    obtain ⟨mid, hmid, hdown⟩ := walk_append.mp hwalk
    rw [← List.nil_append (List.replicate k name), walk_up] at hmid
    obtain rfl := Option.some.inj hmid
    have hnames : Below rest rest := by
      apply below_names
      intro part hpart
      obtain ⟨hnil, hdot⟩ := hmoves part (List.mem_append_right _ hpart)
      exact ⟨hnil, hdot, fun heq => hrest (heq ▸ hpart)⟩
    rw [hnames [], List.nil_append] at hdown
    have heq : rest = List.replicate k name ++ names := Option.some.inj hdown
    cases k with
    | zero =>
      rw [List.replicate_zero, List.nil_append] at hnormal heq
      rw [hnormal, heq]
      exact ⟨rfl, heq ▸ hrest⟩
    | succ k =>
      apply absurd _ hname
      rw [List.mem_toFinset, heq]
      exact List.mem_append_left _ (by simp)
  · rintro ⟨rfl, hup⟩ loc
    obtain ⟨found, hfound⟩ := exists_walk loc parts
    have hdown : Below (normal parts) (normal parts) := by
      apply below_names
      intro part hpart
      exact ⟨(hmoves part hpart).1, (hmoves part hpart).2, fun heq => hup (heq ▸ hpart)⟩
    rw [hfound, ← walk_normal hfound, hdown loc]

end UnixPath
