/-!
# Cutting lists into pieces

`pieces p` cuts a list at the elements on which `p` holds, and drops these; `cutAt p` cuts at the first of them only.
There is always a first piece, so `pieces p [] = [[]]`.

* `pieces_append_cons`: a list cut at a known place.
* `intercalate_pieces`: joining the pieces with the separator gives the list back.
-/

namespace GradleBuild

variable {α : Type}

def pieces (p : α → Bool) : List α → List (List α)
  | [] => [[]]
  | c :: cs =>
    if p c then [] :: pieces p cs
    else
      match pieces p cs with
      | [] => [[c]]
      | w :: ws => (c :: w) :: ws

/-- The part before the first element on which `p` holds, and the part after it if there is one. -/
def cutAt (p : α → Bool) : List α → List α × Option (List α)
  | [] => ([], none)
  | c :: cs => if p c then ([], some cs) else ((c :: (cutAt p cs).1), (cutAt p cs).2)

theorem pieces_ne_nil (p : α → Bool) (l : List α) : pieces p l ≠ [] := by
  cases l with
  | nil => simp [pieces]
  | cons c cs =>
    unfold pieces
    split
    · simp
    · split <;> simp

theorem pieces_of_none {p : α → Bool} {l : List α} (h : ∀ c ∈ l, p c = false) : pieces p l = [l] := by
  induction l with
  | nil => rfl
  | cons c cs ih =>
    have hc : p c = false := h c (by simp)
    simp [pieces, hc, ih (fun x hx => h x (by simp [hx]))]

theorem pieces_append_cons {p : α → Bool} {l r : List α} {c : α} (h : ∀ x ∈ l, p x = false) (hc : p c = true) :
    pieces p (l ++ c :: r) = l :: pieces p r := by
  induction l with
  | nil => simp [pieces, hc]
  | cons x xs ih =>
    have hx : p x = false := h x (by simp)
    simp [pieces, hx, ih (fun y hy => h y (by simp [hy]))]

/-- What holds no separator goes in front of the first piece. -/
theorem pieces_append_of_none {α : Type} {p : α → Bool} {l : List α} (h : ∀ x ∈ l, p x = false) (r : List α) :
    ∃ w ws, pieces p r = w :: ws ∧ pieces p (l ++ r) = (l ++ w) :: ws := by
  induction l with
  | nil =>
    obtain ⟨w, ws, hw⟩ := List.exists_cons_of_ne_nil (pieces_ne_nil p r)
    exact ⟨w, ws, hw, hw⟩
  | cons x xs ih =>
    obtain ⟨w, ws, hw, hcut⟩ := ih fun y hy => h y (List.mem_cons_of_mem _ hy)
    exact ⟨w, ws, hw, by simp [pieces, h x List.mem_cons_self, hcut]⟩

/-- A separator at the end leaves an empty last piece. -/
theorem pieces_append_singleton {p : α → Bool} {c : α} (l : List α) (hc : p c = true) :
    pieces p (l ++ [c]) = pieces p l ++ [[]] := by
  induction l with
  | nil => simp [pieces, hc]
  | cons x xs ih =>
    by_cases hx : p x = true
    · simp [pieces, hx, ih]
    · obtain ⟨w, ws, hw⟩ := List.exists_cons_of_ne_nil (pieces_ne_nil p xs)
      simp [pieces, hx, ih, hw]

theorem cutAt_of_none {p : α → Bool} {l : List α} (h : ∀ c ∈ l, p c = false) : cutAt p l = (l, none) := by
  induction l with
  | nil => rfl
  | cons c cs ih =>
    have hc : p c = false := h c (by simp)
    simp [cutAt, hc, ih (fun x hx => h x (by simp [hx]))]

theorem cutAt_append_cons {p : α → Bool} {l r : List α} {c : α} (h : ∀ x ∈ l, p x = false) (hc : p c = true) :
    cutAt p (l ++ c :: r) = (l, some r) := by
  induction l with
  | nil => simp [cutAt, hc]
  | cons x xs ih =>
    have hx : p x = false := h x (by simp)
    simp [cutAt, hx, ih (fun y hy => h y (by simp [hy]))]

/-- No piece holds a separator. -/
theorem not_sep_of_mem_pieces {p : α → Bool} {l w : List α} (h : w ∈ pieces p l) : ∀ c ∈ w, p c = false := by
  induction l generalizing w with
  | nil => simp [pieces] at h; simp [h]
  | cons x xs ih =>
    unfold pieces at h
    split at h
    · rcases List.mem_cons.1 h with rfl | h
      · simp
      · exact ih h
    · rename_i hx
      split at h
      · simp only [List.mem_singleton] at h
        subst h; simpa using hx
      · rename_i v vs hv
        rcases List.mem_cons.1 h with rfl | h
        · intro c hc
          rcases List.mem_cons.1 hc with rfl | hc
          · simpa using hx
          · exact ih (by simp [hv]) c hc
        · exact ih (by simp [hv, h])

/-- Joining the pieces with the separator gives the list back. -/
theorem intercalate_pieces [BEq α] [LawfulBEq α] (s : α) (l : List α) :
    List.intercalate [s] (pieces (· == s) l) = l := by
  induction l with
  | nil => rfl
  | cons x xs ih =>
    obtain ⟨v, vs, hv⟩ := List.exists_cons_of_ne_nil (pieces_ne_nil (· == s) xs)
    rw [hv] at ih
    unfold pieces
    by_cases hx : (x == s) = true
    · have : x = s := by simpa using hx
      simp only [hx, if_true, hv]
      cases vs <;> simp_all [List.intercalate, List.intersperse]
    · simp only [hx, hv]
      cases vs <;> simp_all [List.intercalate, List.intersperse]

end GradleBuild
