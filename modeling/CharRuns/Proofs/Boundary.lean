import CharRuns.Basic
import Mathlib.Data.List.Basic
import Mathlib.Data.List.TakeWhile

/-!
# The boundary that a search finds

When the elements that satisfy `p` all come before those that do not, `boundary` is the length of
the part in front (`boundary_eq_length_takeWhile`), so the element at the boundary is the first
one that fails `p` and the element in front of it the last that satisfies `p`. The search keeps the
boundary within the positions it has left, one position past the last included.
-/

namespace CharRuns.Search

variable {α : Type _} {p : α → Bool}

/-- The elements that satisfy `p` all come before those that do not. -/
def Partitioned (p : α → Bool) (l : List α) : Prop :=
  l.Pairwise fun a b => p b = true → p a = true

theorem any_getElem?_iff : ∀ {l : List α}, Partitioned p l → ∀ i : Nat,
    l[i]?.any p = true ↔ i < (l.takeWhile p).length
  | [], _, i => by simp
  | a :: l, h, i => by
    obtain ⟨ha, hl⟩ := List.pairwise_cons.1 h
    by_cases hp : p a = true
    · cases i with
      | zero => simp [hp]
      | succ i => simpa [hp] using any_getElem?_iff hl i
    · -- Nothing behind `a` satisfies `p` either.
      have hnone : ∀ b ∈ l, ¬ p b = true := fun b hb hpb => hp (ha b hb hpb)
      cases i with
      | zero => simp [hp]
      | succ i =>
        simp only [List.takeWhile_cons, hp, List.getElem?_cons_succ]
        rcases hi : l[i]? with _ | b
        · simp
        · simpa using hnone b (List.mem_of_getElem? hi)

theorem holdsAt_iff {xs : Array α} (h : Partitioned p xs.toList) (i : Nat) :
    holdsAt p xs i = true ↔ i < (xs.toList.takeWhile p).length := by
  rw [← any_getElem?_iff h, holdsAt, Array.getElem?_toList]

theorem Partitioned.not_of_mem_dropWhile : ∀ {l : List α}, Partitioned p l →
    ∀ a ∈ l.dropWhile p, ¬ p a = true
  | b :: l, h, a, ha, hpa => by
    obtain ⟨hb, hl⟩ := List.pairwise_cons.1 h
    rw [List.dropWhile_cons] at ha
    split_ifs at ha with hpb
    · exact Partitioned.not_of_mem_dropWhile hl a ha hpa
    · rcases List.mem_cons.1 ha with rfl | ha
      · exact hpb hpa
      · exact hpb (hb a ha hpa)

/-- Between `base` and `base + size` lies the boundary, and `narrow` ends next to it. -/
theorem narrow_spec {xs : Array α} (h : Partitioned p xs.toList) {k : Nat}
    (hk : k = (xs.toList.takeWhile p).length) (base size : Nat) (hlow : base = 0 ∨ base < k)
    (hhigh : k ≤ base + size) :
    (narrow p xs base size = 0 ∨ narrow p xs base size < k) ∧ k ≤ narrow p xs base size + 1 := by
  induction base, size using narrow.induct p xs with
  | case1 base size hsize =>
    rw [narrow, if_pos hsize]
    exact ⟨hlow, by omega⟩
  | case2 base size hsize half hmid ih =>
    rw [narrow, if_neg hsize]
    simp only [half] at hmid ih
    rw [if_pos hmid]
    rw [holdsAt_iff h, ← hk] at hmid
    exact ih (.inr hmid) (by omega)
  | case3 base size hsize half hmid ih =>
    rw [narrow, if_neg hsize]
    simp only [half] at hmid ih
    rw [if_neg hmid]
    rw [holdsAt_iff h, ← hk] at hmid
    exact ih hlow (by omega)

theorem boundary_eq_length_takeWhile {xs : Array α} (h : Partitioned p xs.toList) :
    boundary p xs = (xs.toList.takeWhile p).length := by
  unfold boundary
  split
  · rename_i hempty
    rw [Array.isEmpty_iff] at hempty
    simp [hempty]
  · have hsize : (xs.toList.takeWhile p).length ≤ 0 + xs.size := by
      simpa using (List.takeWhile_sublist p (l := xs.toList)).length_le
    obtain ⟨hlow, hhigh⟩ := narrow_spec h rfl 0 xs.size (.inl rfl) hsize
    simp only [holdsAt_iff h]
    split <;> omega

theorem exists_split_at_boundary {xs : Array α} (h : Partitioned p xs.toList) :
    ∃ front back, xs.toList = front ++ back ∧ boundary p xs = front.length
      ∧ (∀ a ∈ front, p a = true) ∧ ∀ a ∈ back, ¬ p a = true :=
  ⟨xs.toList.takeWhile p, xs.toList.dropWhile p, List.takeWhile_append_dropWhile.symm,
    boundary_eq_length_takeWhile h, fun _ => List.mem_takeWhile_imp, h.not_of_mem_dropWhile⟩

/-- The element at the boundary is the first that fails `p`. -/
theorem getElem?_boundary {xs : Array α} (h : Partitioned p xs.toList) :
    xs[boundary p xs]? = xs.toList.find? (!p ·) := by
  rw [boundary_eq_length_takeWhile h, ← Array.getElem?_toList]
  clear h
  induction xs.toList with
  | nil => rfl
  | cons a l ih =>
    by_cases hp : p a = true
    · simpa [hp] using ih
    · simp [hp]

/-- Where no two elements satisfy `p`, a scan finds the only one that does. -/
theorem filter_eq_toList_find? : ∀ {l : List α},
    l.Pairwise (fun a b => p a = true → ¬ p b = true) → l.filter p = (l.find? p).toList
  | [], _ => rfl
  | a :: l, h => by
    obtain ⟨ha, hl⟩ := List.pairwise_cons.1 h
    by_cases hp : p a = true
    · have hnone : l.filter p = [] := List.filter_eq_nil_iff.2 fun b hb => ha b hb hp
      simp [hp, hnone]
    · simpa [hp] using filter_eq_toList_find? hl

/-- The element in front of the boundary. -/
def beforeBoundary? (p : α → Bool) (xs : Array α) : Option α :=
  match boundary p xs with
  | 0 => none
  | i + 1 => xs[i]?

/-- The element in front of the boundary is the last that satisfies `p`. -/
theorem beforeBoundary?_eq {xs : Array α} (h : Partitioned p xs.toList) :
    beforeBoundary? p xs = (xs.toList.filter p).getLast? := by
  obtain ⟨front, back, hsplit, hboundary, hfront, hback⟩ := exists_split_at_boundary h
  have hfilter : xs.toList.filter p = front := by
    rw [hsplit, List.filter_append, List.filter_eq_self.2 hfront, List.filter_eq_nil_iff.2 hback,
      List.append_nil]
  rw [beforeBoundary?, hfilter, hboundary]
  rcases front.eq_nil_or_concat' with rfl | ⟨init, a, rfl⟩
  · rfl
  · simp [← Array.getElem?_toList, hsplit]

end CharRuns.Search
