/-
  Layout-aware LR toolkit — sums of sizes.

  `total` adds up natural numbers; texts, bodies and open levels are measured
  with it.
-/

namespace LayoutLR

/-- The sum of some numbers. -/
def total : List Nat → Nat
  | [] => 0
  | n :: ns => n + total ns

@[simp] theorem total_nil : total [] = 0 :=
  rfl

@[simp] theorem total_cons (n : Nat) (ns : List Nat) : total (n :: ns) = n + total ns :=
  rfl

@[simp] theorem total_append (ms ns : List Nat) : total (ms ++ ns) = total ms + total ns := by
  induction ms with
  | nil => simp
  | cons m ms ih => simp [ih, Nat.add_assoc]

theorem total_map_le {α : Type} {f f' : α → Nat} {l : List α} (h : ∀ a ∈ l, f a ≤ f' a) :
    total (l.map f) ≤ total (l.map f') := by
  induction l with
  | nil => simp
  | cons a l ih =>
    have h₁ := h a (by simp)
    have h₂ := ih fun a ha => h a (by simp [ha])
    simp only [List.map_cons, total_cons]
    omega

theorem total_map_lt {α : Type} {f f' : α → Nat} {l : List α} (h : ∀ a ∈ l, f a ≤ f' a) {a : α}
    (ha : a ∈ l) (hlt : f a < f' a) : total (l.map f) < total (l.map f') := by
  induction l with
  | nil => simp at ha
  | cons b l ih =>
    have h₁ := h b (by simp)
    have h₂ := total_map_le fun a ha => h a (List.mem_cons_of_mem b ha)
    simp only [List.map_cons, total_cons]
    rcases List.mem_cons.1 ha with rfl | ha
    · omega
    · have := ih (fun a ha => h a (by simp [ha])) ha
      omega

theorem total_map_le_mul {α : Type} {f : α → Nat} {n : Nat} {l : List α} (h : ∀ a ∈ l, f a ≤ n) :
    total (l.map f) ≤ l.length * n := by
  induction l with
  | nil => simp
  | cons a l ih =>
    have h₁ := h a (by simp)
    have h₂ := ih fun a ha => h a (by simp [ha])
    simp only [List.map_cons, total_cons, List.length_cons, Nat.add_mul]
    omega

end LayoutLR
