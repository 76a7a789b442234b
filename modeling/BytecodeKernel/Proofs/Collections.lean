import Mathlib.Data.List.Nodup
import Std.Data.TreeMap
/-!
Lists and tables as such. A table is a tree map; what it lists does not depend on the shape of the
tree, but two tables are equal only if their trees are.
-/

namespace BytecodeKernel

/-! ### Lists -/

/-- What a search finds depends only on which elements have the property. -/
theorem findIdx?_eq_of_map {α : Type} {p : α → Bool} {xs ys : List α} (h : xs.map p = ys.map p) :
    xs.findIdx? p = ys.findIdx? p := by
  have hmap (zs : List α) : zs.findIdx? p = (zs.map p).findIdx? (· = true) := by
    rw [List.findIdx?_map]
    congr 1
    funext z
    simp
  rw [hmap, hmap, h]

/-- A least element comes before all that are as small. -/
theorem split_of_minOn?_eq_some {α : Type} {f : α → Nat} {xs : List α} {x : α}
    (h : xs.minOn? f = some x) :
    ∃ before after, xs = before ++ x :: after ∧ (∀ y ∈ before, f x < f y) ∧
      ∀ y ∈ after, f x ≤ f y := by
  induction xs generalizing x with
  | nil => simp at h
  | cons first rest ih =>
    rw [List.minOn?_cons, Option.some.injEq] at h
    cases hrest : rest.minOn? f with
    | none =>
      obtain rfl : rest = [] := by
        by_contra hne
        simp [List.minOn?_eq_some_minOn hne] at hrest
      obtain rfl : first = x := by simpa using h
      exact ⟨[], [], rfl, by simp, by simp⟩
    | some least =>
      obtain ⟨before, after, rfl, hbefore, hafter⟩ := ih hrest
      rw [hrest, Option.elim_some, minOn] at h
      split at h
      · rename_i hle
        subst h
        refine ⟨[], _, rfl, by simp, fun y hy => ?_⟩
        rcases List.mem_append.1 hy with hy | hy
        · exact Nat.le_trans hle (Nat.le_of_lt (hbefore y hy))
        · rcases List.mem_cons.1 hy with rfl | hy
          · exact hle
          · exact Nat.le_trans hle (hafter y hy)
      · rename_i hlt
        subst h
        refine ⟨first :: before, after, rfl, fun y hy => ?_, hafter⟩
        rcases List.mem_cons.1 hy with rfl | hy
        · exact Nat.lt_of_not_le hlt
        · exact hbefore y hy

/-! ### Tables -/

section Tables

variable {β : Type} (t : Std.TreeMap Nat β)

theorem nodup_toList : t.toList.Nodup := by
  apply t.distinct_keys_toList.imp
  rintro a b hne rfl
  simp at hne

theorem values_eq_map_toList : t.values = t.toList.map (·.2) := by
  show t.inner.inner.values = (Std.DTreeMap.Internal.Impl.Const.toList t.inner.inner).map (·.2)
  rw [Std.DTreeMap.Internal.Impl.values_eq_map_snd,
    Std.DTreeMap.Internal.Impl.Const.toList_eq_toListModel_map, List.map_map]
  rfl

theorem toList_perm_of_getElem? {t u : Std.TreeMap Nat β} (h : ∀ k : Nat, t[k]? = u[k]?) :
    t.toList.Perm u.toList := by
  apply (List.perm_ext_iff_of_nodup (nodup_toList t) (nodup_toList u)).2
  rintro ⟨k, v⟩
  rw [Std.TreeMap.mem_toList_iff_getElem?_eq_some, Std.TreeMap.mem_toList_iff_getElem?_eq_some, h]

theorem toList_perm_cons_erase {t : Std.TreeMap Nat β} {k : Nat} {v : β} (h : t[k]? = some v) :
    t.toList.Perm ((k, v) :: (t.erase k).toList) := by
  have hnotin : (k, v) ∉ (t.erase k).toList := by simp
  refine (List.perm_ext_iff_of_nodup (nodup_toList t)
    (List.nodup_cons.2 ⟨hnotin, nodup_toList _⟩)).2 ?_
  rintro ⟨j, w⟩
  simp only [Std.TreeMap.mem_toList_iff_getElem?_eq_some, List.mem_cons, Prod.mk.injEq,
    Std.TreeMap.getElem?_erase, Nat.compare_eq_eq]
  by_cases hj : k = j
  · subst hj
    simp [h, eq_comm]
  · simp [hj, Ne.symm hj]

theorem toList_insert_perm_erase (t : Std.TreeMap Nat β) (k : Nat) (v : β) :
    (t.insert k v).toList.Perm ((k, v) :: (t.erase k).toList) := by
  have hself : (t.insert k v)[k]? = some v := by simp
  refine (toList_perm_cons_erase hself).trans ((toList_perm_of_getElem? fun j => ?_).cons _)
  simp only [Std.TreeMap.getElem?_erase, Std.TreeMap.getElem?_insert]
  split <;> rfl

theorem toList_perm_erase {t : Std.TreeMap Nat β} {k : Nat} (h : t[k]? = none) :
    t.toList.Perm (t.erase k).toList := by
  refine toList_perm_of_getElem? fun j => ?_
  rw [Std.TreeMap.getElem?_erase]
  split
  · rename_i hj
    rw [← Nat.compare_eq_eq.1 hj, h]
  · rfl

theorem of_getElem?_insert {t : Std.TreeMap Nat β} {P : β → Prop}
    (ht : ∀ (k : Nat) v, t[k]? = some v → P v) (j : Nat) {w : β} (hw : P w) (k : Nat) (v : β)
    (hv : (t.insert j w)[k]? = some v) : P v := by
  rw [Std.TreeMap.getElem?_insert] at hv
  split at hv
  · exact Option.some.inj hv ▸ hw
  · exact ht k v hv

theorem of_getElem?_erase {t : Std.TreeMap Nat β} {P : β → Prop}
    (ht : ∀ (k : Nat) v, t[k]? = some v → P v) (j k : Nat) (v : β)
    (hv : (t.erase j)[k]? = some v) : P v := by
  rw [Std.TreeMap.getElem?_erase] at hv
  split at hv
  · contradiction
  · exact ht k v hv

/-- Two changes at one key are one change, also in the shape of the tree. -/
theorem impl_modify_modify (t : Std.DTreeMap.Internal.Impl Nat fun _ => β) (k : Nat)
    (f g : β → β) :
    Std.DTreeMap.Internal.Impl.Const.modify k g (Std.DTreeMap.Internal.Impl.Const.modify k f t) =
      Std.DTreeMap.Internal.Impl.Const.modify k (fun v => g (f v)) t := by
  induction t with
  | leaf => rfl
  | inner size key v left right ihleft ihright =>
    simp only [Std.DTreeMap.Internal.Impl.Const.modify]
    cases hkey : compare k key with
    | lt => simp only [Std.DTreeMap.Internal.Impl.Const.modify, hkey, ihleft]
    | gt => simp only [Std.DTreeMap.Internal.Impl.Const.modify, hkey, ihright]
    | eq =>
      simp only [Std.DTreeMap.Internal.Impl.Const.modify]
      rw [Nat.compare_eq_eq.2 rfl]

theorem modify_modify (k : Nat) (f g : β → β) :
    (t.modify k f).modify k g = t.modify k fun v => g (f v) := by
  have hinner := impl_modify_modify t.inner.inner k f g
  simp only [Std.TreeMap.modify, Std.DTreeMap.Const.modify]
  congr 2

/-- To change a value to what it is changes nothing, not even the shape of the tree. -/
theorem modify_eq_self {t : Std.TreeMap Nat β} {key : Nat} {f : β → β}
    (h : ∀ v, t[key]? = some v → f v = v) : t.modify key f = t := by
  obtain ⟨⟨inner, wf⟩⟩ := t
  have hinner : ∀ tree : Std.DTreeMap.Internal.Impl Nat fun _ => β,
      (∀ v, Std.DTreeMap.Internal.Impl.Const.get? tree key = some v → f v = v) →
        Std.DTreeMap.Internal.Impl.Const.modify key f tree = tree := by
    intro tree
    induction tree with
    | leaf => exact fun _ => rfl
    | inner size other v left right ihleft ihright =>
      intro h
      rw [Std.DTreeMap.Internal.Impl.Const.modify]
      rw [Std.DTreeMap.Internal.Impl.Const.get?] at h
      cases hcompare : compare key other with
      | lt => rw [ihleft fun w hw => h w (by rw [hcompare]; exact hw)]
      | gt => rw [ihright fun w hw => h w (by rw [hcompare]; exact hw)]
      | eq =>
        simp only [hcompare] at h
        rw [h v rfl, Nat.compare_eq_eq.1 hcompare]
  have hsame := hinner inner h
  simp only [Std.TreeMap.modify, Std.DTreeMap.Const.modify]
  congr 2

end Tables

end BytecodeKernel
