import Mathlib.Data.List.Perm.Basic
import Mathlib.Tactic

/-!
# Keyed tables

A table of items with a comparison of their keys: what a hash table is to the code that uses
it.  Storing an item replaces the one with its key and returns it; nothing is promised of
the order the items are listed in.
-/

/-- A table of items of which no two stored ones have the same key. -/
structure KeyedTable (E : Type) (same : E → E → Prop) [DecidableRel same] where
  Table : Type
  new : Table
  /-- An item is stored; the one it replaces is returned. -/
  set : Table → E → Table × Option E
  get : Table → E → Option E
  /-- The item with the key of a probe is removed and returned. -/
  delete : Table → E → Table × Option E
  /-- The items in the order an iteration yields them. -/
  iter : Table → List E
  count : Table → ℕ
  iter_new : iter new = []
  iter_set : ∀ t e, (iter (set t e).1).Perm (e :: (iter t).filter fun x => ¬ same e x)
  set_replaced : ∀ t e, (set t e).2 = (iter t).find? fun x => same e x
  get_eq : ∀ t e, get t e = (iter t).find? fun x => same e x
  iter_delete : ∀ t e, (iter (delete t e).1).Perm ((iter t).filter fun x => ¬ same e x)
  delete_removed : ∀ t e, (delete t e).2 = (iter t).find? fun x => same e x
  count_eq : ∀ t, count t = (iter t).length

namespace KeyedTable

variable {E : Type} {same : E → E → Prop} [DecidableRel same]

/-- A table kept as the list of its items, the last stored item first. -/
def ofList (E : Type) (same : E → E → Prop) [DecidableRel same] : KeyedTable E same where
  Table := List E
  new := []
  set t e := (e :: t.filter fun x => ¬ same e x, t.find? fun x => same e x)
  get t e := t.find? fun x => same e x
  delete t e := (t.filter fun x => ¬ same e x, t.find? fun x => same e x)
  iter t := t
  count t := t.length
  iter_new := rfl
  iter_set _ _ := List.Perm.refl _
  set_replaced _ _ := rfl
  get_eq _ _ := rfl
  iter_delete _ _ := List.Perm.refl _
  delete_removed _ _ := rfl
  count_eq _ := rfl

/-! ### Tables without two items of one key -/

section

variable {κ : Type} {key : E → κ} (hkey : ∀ a b, same a b ↔ key a = key b) (T : KeyedTable E same)

theorem nodup_keys_new : ((T.iter T.new).map key).Nodup := by
  rw [T.iter_new]
  exact List.nodup_nil

theorem nodup_keys_filter {l : List E} (h : (l.map key).Nodup) (e : E) :
  ((l.filter fun x => ¬ same e x).map key).Nodup
  := by
  apply List.Nodup.sublist _ h
  exact List.Sublist.map key List.filter_sublist

include hkey in
theorem nodup_keys_set {t : T.Table} (h : ((T.iter t).map key).Nodup) (e : E) :
  ((T.iter (T.set t e).1).map key).Nodup
  := by
  rw [((T.iter_set t e).map key).nodup_iff, List.map_cons, List.nodup_cons]
  constructor
  · intro hmem
    obtain ⟨x, hx, hsame⟩ := List.mem_map.mp hmem
    rw [List.mem_filter, decide_eq_true_eq] at hx
    exact hx.2 ((hkey e x).mpr hsame.symm)
  · exact nodup_keys_filter h e

theorem nodup_keys_delete {t : T.Table} (h : ((T.iter t).map key).Nodup) (e : E) :
  ((T.iter (T.delete t e).1).map key).Nodup
  := by
  rw [((T.iter_delete t e).map key).nodup_iff]
  exact nodup_keys_filter h e

end

end KeyedTable
