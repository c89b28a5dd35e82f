import Mathlib.Data.List.Nodup
import Mathlib.Data.List.Range

/-! Lists as they are shown: one page at a time, and sorted by a key in a stable way. -/
namespace Listing

variable {α : Type}

section Pages

def page (l : List α) (start count : ℕ) : List α := (l.drop start).take count

theorem length_page (l : List α) (start count : ℕ) :
    (page l start count).length = min count (l.length - start) := by
  simp [page]

theorem page_eq_nil {l : List α} {start count : ℕ} :
    page l start count = [] ↔ count = 0 ∨ l.length ≤ start := by
  rw [← List.length_eq_zero_iff,length_page]
  omega

theorem getElem?_page (l : List α) {start count k : ℕ} (hk : k < count) :
    (page l start count)[k]? = l[start+k]? := by
  rw [page,List.getElem?_take,if_pos hk,List.getElem?_drop]

theorem page_eq_page_iff {l : List α} (hl : l.Nodup) {a b c d : ℕ} : page l a b = page l c d ↔
    (page l a b = [] ∧ page l c d = []) ∨ a = c ∧ min b (l.length - a) = min d (l.length - c) := by
  constructor
  · intro h
    by_cases hnil : page l a b = []
    · exact Or.inl ⟨hnil,h ▸ hnil⟩
    · have hcd := hnil
      rw [h] at hcd
      rw [page_eq_nil] at hnil hcd
      have hlength := congrArg List.length h
      rw [length_page,length_page] at hlength
      have hhead : (page l a b)[0]? = (page l c d)[0]? := by rw [h]
      rw [getElem?_page l (by omega),getElem?_page l (by omega)] at hhead
      exact Or.inr ⟨(List.getElem?_inj (by omega) hl).mp hhead,hlength⟩
  · rintro (⟨h,h'⟩ | ⟨rfl,h⟩)
    · rw [h,h']
    · rw [page,page,List.take_eq_take_min,List.length_drop,h,← List.length_drop,← List.take_eq_take_min]

theorem flatMap_page (l : List α) (size k : ℕ) :
    (List.range k).flatMap (fun i => page l (i*size) size) = l.take (k*size) := by
  induction k with
  | zero => simp
  | succ k ih =>
    rw [List.range_succ,List.flatMap_append,ih,List.flatMap_singleton,page,← List.take_add,Nat.succ_mul]

theorem filterMap_range_page {β : Type} (f : α → Option β) (l : List α) (start count : ℕ) :
    (List.range count).filterMap (fun k => l[start+k]?.bind f) = (page l start count).filterMap f := by
  induction count with
  | zero => simp [page]
  | succ count ih =>
    rw [List.range_succ,List.filterMap_append,ih,page,page,List.take_add_one,List.filterMap_append,List.getElem?_drop]
    cases h : l[start+count]? with
    | none => simp [h]
    | some a => cases hf : f a <;> simp [h,hf]

end Pages

section Sorting

variable {le : α → α → Bool}

theorem filter_mergeSort (htrans : ∀ a b c, le a b → le b c → le a c)
    (htotal : ∀ a b, le a b || le b a) (l : List α) (a : α) :
    (l.mergeSort le).filter (fun b => le a b && le b a) = l.filter fun b => le a b && le b a := by
  have htied : (l.filter fun b => le a b && le b a).Pairwise (le · ·) := by
    refine List.pairwise_of_forall_mem_list fun b hb c hc => ?_
    simp only [List.mem_filter,Bool.and_eq_true] at hb hc
    exact htrans b a c hb.2.2 hc.2.1
  have hsub := (List.sublist_mergeSort htrans htotal htied List.filter_sublist).filter fun b => le a b && le b a
  rw [List.filter_filter] at hsub
  simp only [Bool.and_self] at hsub
  exact (hsub.eq_of_length ((List.mergeSort_perm l le).filter _).length_eq.symm).symm

theorem mergeSort_eq_of_perm (htrans : ∀ a b c, le a b → le b c → le a c)
    (htotal : ∀ a b, le a b || le b a) {l l' : List α} (h : l.Perm l')
    (hne : ∀ a ∈ l, ∀ b ∈ l, le a b → le b a → a = b) : l.mergeSort le = l'.mergeSort le := by
  refine List.Perm.eq_of_pairwise (fun a b ha hb hab hba => ?_) (List.pairwise_mergeSort htrans htotal l)
    (List.pairwise_mergeSort htrans htotal l') ?_
  · exact hne a (List.mem_mergeSort.mp ha) b (h.mem_iff.mpr (List.mem_mergeSort.mp hb)) hab hba
  · exact (List.mergeSort_perm l le).trans (h.trans (List.mergeSort_perm l' le).symm)

/-- The order of the input does not matter exactly if the order tells its elements apart. -/
theorem mergeSort_order_iff (htrans : ∀ a b c, le a b → le b c → le a c)
    (htotal : ∀ a b, le a b || le b a) (m : List α) :
    (∀ l l' : List α, l.Perm m → l'.Perm m → l.mergeSort le = l'.mergeSort le) ↔
      ∀ a ∈ m, ∀ b ∈ m, le a b → le b a → a = b := by
  constructor
  · intro h a ha b hb hab hba
    obtain ⟨s,t,hm⟩ := List.append_of_mem ha
    obtain ⟨s',t',hm'⟩ := List.append_of_mem hb
    have hl : (a::(s ++ t)).Perm m := hm ▸ List.perm_middle.symm
    have hl' : (b::(s' ++ t')).Perm m := hm' ▸ List.perm_middle.symm
    have hrefl : le a a := by simpa using htotal a a
    have hfilter := congrArg (List.filter fun c => le a c && le c a) (h _ _ hl hl')
    rw [filter_mergeSort htrans htotal,filter_mergeSort htrans htotal,
      List.filter_cons_of_pos (by simp [hrefl]),List.filter_cons_of_pos (by simp [hab,hba])] at hfilter
    exact (List.cons.inj hfilter).1
  · intro h l l' hl hl'
    refine mergeSort_eq_of_perm htrans htotal (hl.trans hl'.symm) fun a ha b hb => ?_
    exact h a (hl.mem_iff.mp ha) b (hl.mem_iff.mp hb)

/-- Any order of the results comes from an order of what they are results of. -/
theorem exists_perm_filterMap {β : Type} (f : β → Option α) {l : List α} {m : List β}
    (h : l.Perm (m.filterMap f)) : ∃ m' : List β, m'.Perm m ∧ m'.filterMap f = l := by
  induction l generalizing m with
  | nil => exact ⟨m,List.Perm.refl m,h.nil_eq.symm⟩
  | cons a l ih =>
    obtain ⟨b,hb,hab⟩ := List.mem_filterMap.mp (h.mem_iff.mp List.mem_cons_self)
    obtain ⟨s,t,rfl⟩ := List.append_of_mem hb
    have hperm : (s ++ b::t).Perm (b::(s ++ t)) := List.perm_middle
    have hrest := h.trans (hperm.filterMap f)
    rw [List.filterMap_cons_some hab] at hrest
    obtain ⟨m',hm',rfl⟩ := ih hrest.cons_inv
    exact ⟨b::m',(hm'.cons b).trans hperm.symm,List.filterMap_cons_some hab⟩

end Sorting

end Listing
