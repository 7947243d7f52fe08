import Mathlib.Data.List.Basic
import Mathlib.Tactic

/-!
# Insertions

A list is put before some elements of another one.  In a text that is a word put before
words, and where it was put can be read off the result, if no word goes on behind a mark
with the last letter of the word that was put there.
-/

namespace Insertions

variable {α : Type*} {mark mark' : ℕ → Bool} {pre : List α}

/-- A list with `pre` before the elements at marked positions, where the first element is at
a given position. -/
def insertFrom (mark : ℕ → Bool) (pre : List α) : ℕ → List α → List α
  | _, [] => []
  | i, c :: rest => (if mark i then pre else []) ++ c :: insertFrom mark pre (i + 1) rest

theorem insertFrom_append (i : ℕ) (p rest : List α) :
  insertFrom mark pre i (p ++ rest) =
    insertFrom mark pre i p ++ insertFrom mark pre (i + p.length) rest
  := by
  induction p generalizing i with
  | nil => rfl
  | cons c p ih =>
    simp only [List.cons_append, insertFrom, ih, List.append_assoc, List.length_cons]
    rw [show i + (p.length + 1) = i + 1 + p.length by omega]

/-- Only the marks at the positions of the list matter. -/
theorem insertFrom_congr {i : ℕ} {p : List α}
    (h : ∀ j, i ≤ j → j < i + p.length → mark j = mark' j) :
  insertFrom mark pre i p = insertFrom mark' pre i p
  := by
  induction p generalizing i with
  | nil => rfl
  | cons c p ih =>
    rw [List.length_cons] at h
    simp only [insertFrom]
    rw [h i le_rfl (by omega), ih fun j hi hj => h j (by omega) (by omega)]

theorem insertFrom_unmarked (i : ℕ) (p : List α) : insertFrom (fun _ => false) pre i p = p := by
  induction p generalizing i with
  | nil => rfl
  | cons c p ih => simp [insertFrom, ih]

theorem insertFrom_clear {i : ℕ} {p : List α}
    (h : ∀ j, i ≤ j → j < i + p.length → mark j = false) :
  insertFrom mark pre i p = p
  := (insertFrom_congr h).trans (insertFrom_unmarked i p)

/-- Before a word that is marked at its start only, the list is put once. -/
theorem insertFrom_first {i : ℕ} {p : List α} (hp : p ≠ []) (hi : mark i = true)
    (h : ∀ j, i < j → j < i + p.length → mark j = false) :
  insertFrom mark pre i p = pre ++ p
  := by
  cases p with
  | nil => contradiction
  | cons c p =>
    rw [List.length_cons] at h
    simp only [insertFrom, hi, if_true]
    rw [insertFrom_clear fun j hj hlt => h j (by omega) (by omega)]

theorem mem_insertFrom {i : ℕ} {p : List α} {c : α} (h : c ∈ insertFrom mark pre i p) :
  c ∈ pre ∨ c ∈ p
  := by
  induction p generalizing i with
  | nil => cases h
  | cons d p ih =>
    rcases List.mem_append.mp h with h | h
    · split_ifs at h
      · exact .inl h
      · cases h
    · rcases List.mem_cons.mp h with rfl | h
      · exact .inr (by simp)
      · exact (ih h).imp_right fun hc => by simp [hc]

theorem length_le_insertFrom (i : ℕ) (p : List α) : p.length ≤ (insertFrom mark pre i p).length := by
  induction p generalizing i with
  | nil => exact Nat.zero_le _
  | cons c p ih =>
    have := ih (i + 1)
    simp only [insertFrom, List.length_append, List.length_cons]
    omega

theorem length_insertFrom_marked {i : ℕ} {p : List α} (hp : p ≠ []) (hi : mark i = true) :
  pre.length + p.length ≤ (insertFrom mark pre i p).length
  := by
  cases p with
  | nil => contradiction
  | cons c p =>
    have : p.length ≤ (insertFrom mark pre (i + 1) p).length := length_le_insertFrom _ _
    simp only [insertFrom, hi, if_true, List.length_append, List.length_cons]
    omega

theorem head_insertFrom {i : ℕ} (hi : mark i = false) (p : List α) :
  (insertFrom mark pre i p).head? = p.head?
  := by
  cases p with
  | nil => rfl
  | cons c p => simp [insertFrom, hi]

/-- Where nothing has changed, nothing was put. -/
theorem unmarked_of_insertFrom_eq {i : ℕ} {p : List α} (hpre : pre ≠ [])
    (h : insertFrom mark pre i p = p) :
  ∀ j, i ≤ j → j < i + p.length → mark j = false
  := by
  intro j hij hj
  by_contra hmark
  obtain ⟨u, v, rfl, hu⟩ : ∃ u v, p = u ++ v ∧ u.length = j - i :=
    ⟨p.take (j - i), p.drop (j - i), (List.take_append_drop _ _).symm, by
      rw [List.length_take]
      omega⟩
  have hv : v ≠ [] := by
    rintro rfl
    rw [List.append_nil] at hj
    omega
  have hmark' : mark (i + u.length) = true := by
    rw [hu, Nat.add_sub_cancel' hij]
    simpa using hmark
  have hlength := congrArg List.length h
  rw [insertFrom_append, List.length_append, List.length_append] at hlength
  have hfront : u.length ≤ (insertFrom mark pre i u).length := length_le_insertFrom _ _
  have hback : pre.length + v.length ≤ (insertFrom mark pre (i + u.length) v).length :=
    length_insertFrom_marked hv hmark'
  have := List.length_pos_of_ne_nil hpre
  omega

/-! ### Reading off the marks -/

variable {q start : α → Bool}

/-- A text starts with one word only. -/
theorem word_unique {p p' rest rest' : List α} (hp : ∀ c ∈ p, q c = true)
    (hp' : ∀ c ∈ p', q c = true) (hrest : rest.head?.any q = false)
    (hrest' : rest'.head?.any q = false) (h : p ++ rest = p' ++ rest') :
  p = p'
  := by
  have hshort : ∀ {a x y : List α}, (∀ c ∈ a, q c = true) → x.head?.any q = false → x = a ++ y →
      a = [] := by
    intro a x y ha hx heq
    cases a with
    | nil => rfl
    | cons c a =>
      rw [heq, List.cons_append, List.head?_cons, Option.any_some, ha c (by simp)] at hx
      cases hx
  rcases List.append_eq_append_iff.mp h with ⟨a, rfl, heq⟩ | ⟨a, rfl, heq⟩
  · rw [hshort (fun c hc => hp' c (by simp [hc])) hrest heq, List.append_nil]
  · rw [hshort (fun c hc => hp c (by simp [hc])) hrest' heq, List.append_nil]

/-- Marks within a word are at its first mark or behind letters other than the last one
of `pre`. -/
theorem no_mark_of_swap {i : ℕ} {w : List α} (hpre : pre ≠ [])
    (hlast : ∀ u v, w = u ++ v → u ≠ [] → mark' (i + u.length) = true →
      u.getLast? ≠ pre.getLast?)
    (hi : mark' i = false) (h : pre ++ w = insertFrom mark' pre i w) :
  False
  := by
  by_cases hmark : ∃ j, i < j ∧ j < i + w.length ∧ mark' j = true
  · classical
    obtain ⟨hij, hjw, hj⟩ := Nat.find_spec hmark
    have hfirst : ∀ k, i ≤ k → k < Nat.find hmark → mark' k = false := by
      intro k hik hk
      rcases Nat.eq_or_lt_of_le hik with rfl | hik
      · exact hi
      · have := Nat.find_min hmark hk
        simpa [hik, hk.trans hjw] using this
    set j := Nat.find hmark
    obtain ⟨u, v, rfl, hu⟩ : ∃ u v, w = u ++ v ∧ u.length = j - i :=
      ⟨w.take (j - i), w.drop (j - i), (List.take_append_drop _ _).symm, by
        rw [List.length_take]
        omega⟩
    have hne : u ≠ [] := by
      rintro rfl
      simp only [List.length_nil] at hu
      omega
    rw [List.length_append] at hjw
    have hij' : i + u.length = j := by omega
    cases v with
    | nil =>
      rw [List.length_nil] at hjw
      omega
    | cons c v =>
      rw [insertFrom_append, hij', insertFrom_clear fun k hik hk => hfirst k hik (by omega)] at h
      simp only [insertFrom, hj, if_true] at h
      rw [← List.append_assoc, ← List.append_assoc] at h
      have hswap := (List.append_inj h (by simp only [List.length_append]; omega)).1
      apply hlast u (c :: v) rfl hne (by rw [hij', hj])
      have hget := congrArg List.getLast? hswap
      rwa [List.getLast?_append_of_ne_nil _ hne, List.getLast?_append_of_ne_nil _ hpre] at hget
  · have hclear : insertFrom mark' pre i w = w := by
      apply insertFrom_clear
      intro j hij hj
      rcases Nat.eq_or_lt_of_le hij with rfl | hij
      · exact hi
      · by_contra hmarked
        exact hmark ⟨j, hij, hj, by simpa using hmarked⟩
    have hlength := congrArg List.length h
    rw [hclear, List.length_append] at hlength
    have := List.length_pos_of_ne_nil hpre
    omega

/-- Marks of a text where a word may start. -/
def AtStarts (start : α → Bool) (src : List α) (mark : ℕ → Bool) : Prop :=
  ∀ front rest, src = front ++ rest → mark front.length = true → rest.head?.any start = true

/-- Within a word, nothing is marked behind a letter a word may start with. -/
def OncePerWord (start q : α → Bool) (src : List α) (mark : ℕ → Bool) : Prop :=
  ∀ front w rest, src = front ++ w ++ rest → w.head?.any start = true → (∀ c ∈ w, q c = true) →
    mark (front.length + w.length) = false

/-- No mark is right behind the last letter of `pre`. -/
def NotBehind (pre src : List α) (mark : ℕ → Bool) : Prop :=
  ∀ front rest, src = front ++ rest → mark front.length = true → front.getLast? ≠ pre.getLast?

theorem AtStarts.unmarked {front rest : List α} (h : AtStarts start (front ++ rest) mark)
    (hq : ∀ c, start c = true → q c = true) (hrest : rest.head?.any q = false) :
  mark front.length = false
  := by
  by_contra hmark
  have hstart := h front rest rfl (by simpa using hmark)
  cases hhead : rest.head? with
  | none => simp [hhead] at hstart
  | some c =>
    rw [hhead, Option.any_some] at hstart hrest
    rw [hq c hstart] at hrest
    cases hrest

theorem exists_word (q : α → Bool) (t : List α) :
  ∃ w rest, t = w ++ rest ∧ (∀ c ∈ w, q c = true) ∧ rest.head?.any q = false
  := by
  induction t with
  | nil => exact ⟨[], [], rfl, by simp, rfl⟩
  | cons c t ih =>
    cases hc : q c with
    | false => exact ⟨[], c :: t, rfl, by simp, hc⟩
    | true =>
      obtain ⟨w, rest, rfl, hw, hrest⟩ := ih
      exact ⟨c :: w, rest, rfl, by simpa [hc] using hw, hrest⟩

theorem OncePerWord.inner {front w rest : List α}
    (h : OncePerWord start q (front ++ w ++ rest) mark) (hhead : w.head?.any start = true)
    (hw : ∀ c ∈ w, q c = true) :
  ∀ j, front.length < j → j < front.length + w.length → mark j = false
  := by
  intro j hj hlt
  obtain ⟨k, rfl⟩ := Nat.exists_eq_add_of_le hj.le
  have hk : (w.take k).length = k := by
    rw [List.length_take]
    omega
  have hsplit : front ++ w ++ rest = front ++ w.take k ++ (w.drop k ++ rest) := by
    rw [List.append_assoc front (w.take k), ← List.append_assoc (w.take k), List.take_append_drop,
      List.append_assoc]
  have hclear := h front (w.take k) _ hsplit (by rwa [List.head?_take, if_neg (by omega)])
    fun d hd => hw d (List.mem_of_mem_take hd)
  rwa [hk] at hclear

/-- The texts do not differ first before a word. -/
theorem mark_eq_of_word {front w rest : List α} (hpre : ∀ c ∈ pre, q c = true) (hne : pre ≠ [])
    (hq : ∀ c, start c = true → q c = true) (hm : AtStarts start (front ++ w ++ rest) mark)
    (hm' : AtStarts start (front ++ w ++ rest) mark')
    (honce : OncePerWord start q (front ++ w ++ rest) mark)
    (hlast : NotBehind pre (front ++ w ++ rest) mark') (hhead : w.head?.any start = true)
    (hw : ∀ c ∈ w, q c = true) (hrest : rest.head?.any q = false)
    (h : insertFrom mark pre front.length (w ++ rest) =
      insertFrom mark' pre front.length (w ++ rest)) :
  mark front.length = mark' front.length
  := by
  have hwne : w ≠ [] := by
    rintro rfl
    cases hhead
  have hafter : ∀ {m : ℕ → Bool}, AtStarts start (front ++ w ++ rest) m →
      (insertFrom m pre (front.length + w.length) rest).head?.any q = false := by
    intro m hm
    have hunmarked := hm.unmarked hq hrest
    rw [List.length_append] at hunmarked
    rwa [head_insertFrom hunmarked]
  have hinner := honce.inner hhead hw
  rw [insertFrom_append, insertFrom_append] at h
  have hall : ∀ {m : ℕ → Bool}, ∀ d ∈ insertFrom m pre front.length w, q d = true :=
    fun d hd => (mem_insertFrom hd).elim (hpre d) (hw d)
  have hword := word_unique hall hall (hafter hm) (hafter hm') h
  by_contra hdiff
  cases hmark : mark front.length with
  | true =>
    have hmark' : mark' front.length = false := by simpa [hmark] using hdiff
    rw [insertFrom_first hwne hmark hinner] at hword
    refine no_mark_of_swap hne ?_ hmark' hword
    rintro u v rfl hu hj hget
    apply hlast (front ++ u) (v ++ rest) (by simp) (by rwa [List.length_append])
    rwa [List.getLast?_append_of_ne_nil _ hu]
  | false =>
    have hmark' : mark' front.length = true := by simpa [hmark] using hdiff
    have hclear : insertFrom mark pre front.length w = w := by
      apply insertFrom_clear
      intro j hj hlt
      rcases Nat.eq_or_lt_of_le hj with rfl | hj
      · exact hmark
      · exact hinner j hj hlt
    have hlength : pre.length + w.length ≤ (insertFrom mark' pre front.length w).length :=
      length_insertFrom_marked hwne hmark'
    rw [← hword, hclear] at hlength
    have := List.length_pos_of_ne_nil hne
    omega

/-- Where a word was put can be read off the result. -/
theorem mark_eq_of_insertFrom_eq {src : List α} (hpre : ∀ c ∈ pre, q c = true) (hne : pre ≠ [])
    (hq : ∀ c, start c = true → q c = true) (hm : AtStarts start src mark)
    (hm' : AtStarts start src mark') (honce : OncePerWord start q src mark)
    (hlast : NotBehind pre src mark') {front t : List α} (hsrc : src = front ++ t)
    (h : insertFrom mark pre front.length t = insertFrom mark' pre front.length t) :
  ∀ j, front.length ≤ j → j < front.length + t.length → mark j = mark' j
  := by
  induction t generalizing front with
  | nil =>
    intro j hj hlt
    rw [List.length_nil] at hlt
    omega
  | cons c t ih =>
    have heq : mark front.length = mark' front.length := by
      cases hstart : start c with
      | false =>
        have hunmarked : ∀ {m : ℕ → Bool}, AtStarts start src m → m front.length = false := by
          intro m hm
          by_contra hmark
          have := hm front (c :: t) hsrc (by simpa using hmark)
          simp [hstart] at this
        rw [hunmarked hm, hunmarked hm']
      | true =>
        obtain ⟨w, rest, ht, hw, hrest⟩ := exists_word q (c :: t)
        have hhead : w.head?.any start = true := by
          cases w with
          | nil =>
            rw [List.nil_append] at ht
            simp [← ht, hq c hstart] at hrest
          | cons d w =>
            obtain ⟨rfl, -⟩ := List.cons.inj ht
            exact hstart
        rw [ht] at h hsrc
        rw [← List.append_assoc] at hsrc
        subst hsrc
        exact mark_eq_of_word hpre hne hq hm hm' honce hlast hhead hw hrest h
    intro j hj hlt
    rcases Nat.eq_or_lt_of_le hj with rfl | hj
    · exact heq
    · simp only [insertFrom, heq, List.append_cancel_left_eq, List.cons.injEq, true_and] at h
      have hstep := @ih (front ++ [c]) (by rw [hsrc, List.append_assoc]; rfl)
      rw [List.length_append, List.length_singleton] at hstep
      apply hstep h j (by omega)
      rw [List.length_cons] at hlt
      omega

end Insertions
