import Mathlib.Data.List.Basic

namespace PairTree

variable {α : Type}

-- One level of a tree hash: neighbours are joined, and the last element of an
-- odd level is joined with itself.
def levelUp (node : α → α → α) : List α → List α
  | [] => []
  | [a] => [node a a]
  | a :: b :: rest => node a b :: levelUp node rest

-- The loop `while level.len() > 1`, with fuel.
def collapse (node : α → α → α) : Nat → List α → List α
  | 0,level => level
  | fuel+1,level => if level.length > 1 then collapse node fuel (levelUp node level) else level

-- The pairs that the two functions above hand to `node`.
def levelPairs : List α → List (α × α)
  | [] => []
  | [a] => [(a,a)]
  | a :: b :: rest => (a,b) :: levelPairs rest

def collapsePairs (node : α → α → α) : Nat → List α → List (α × α)
  | 0,_ => []
  | fuel+1,level =>
    if level.length > 1 then levelPairs level ++ collapsePairs node fuel (levelUp node level) else []

variable {node : α → α → α}

theorem levelUp_length (node : α → α → α) (level : List α) : (levelUp node level).length = (level.length + 1) / 2 := by
  induction level using levelUp.induct with
  | case1 => simp [levelUp]
  | case2 => simp [levelUp]
  | case3 a b rest ih => simp only [levelUp,List.length_cons,ih]; omega

theorem collapse_length (node : α → α → α) (nonempty : level ≠ []) (enough : level.length ≤ fuel + 1) :
    (collapse node fuel level).length = 1 := by
  have positive : 0 < level.length := List.length_pos_iff.mpr nonempty
  induction fuel generalizing level with
  | zero => simp only [collapse]; omega
  | succ fuel ih =>
    unfold collapse
    split
    · have shorter := levelUp_length node level
      exact ih (List.ne_nil_of_length_pos (by omega)) (by omega) (by omega)
    · omega

theorem collapse_enough (node : α → α → α) (enough : level.length ≤ fuel + 1) :
    collapse node (fuel+1) level = collapse node fuel level := by
  induction fuel generalizing level with
  | zero =>
    unfold collapse
    rw [if_neg (by omega)]
  | succ fuel ih =>
    unfold collapse
    by_cases long : level.length > 1
    · have shorter := levelUp_length node level
      rw [if_pos long,if_pos long]
      exact ih (by omega)
    · rw [if_neg long,if_neg long]

-- `node` need only tell apart the pairs that the two levels hand to it.
theorem levelUp_injective {left right : List α} (length : left.length = right.length)
    (inj : ∀ x ∈ levelPairs left, ∀ y ∈ levelPairs right, node x.1 x.2 = node y.1 y.2 → x = y)
    (equal : levelUp node left = levelUp node right) : left = right := by
  induction left using levelUp.induct generalizing right with
  | case1 => exact (List.length_eq_zero_iff.mp length.symm).symm
  | case2 a =>
    obtain ⟨b,rfl⟩ := List.length_eq_one_iff.mp length.symm
    have same := inj (a,a) (by simp [levelPairs]) (b,b) (by simp [levelPairs]) (by simpa [levelUp] using equal)
    cases same; rfl
  | case3 a b rest ih =>
    match right,length with
    | c :: d :: rest',length =>
      simp only [levelUp,List.cons.injEq] at equal
      have same := inj (a,b) (by simp [levelPairs]) (c,d) (by simp [levelPairs]) equal.1
      cases same
      have tails := ih (by simpa using length)
        (fun x hx y hy => inj x (List.mem_cons_of_mem _ hx) y (List.mem_cons_of_mem _ hy)) equal.2
      rw [tails]

theorem collapse_injective {left right : List α} (length : left.length = right.length)
    (inj : ∀ x ∈ collapsePairs node fuel left, ∀ y ∈ collapsePairs node fuel right,
      node x.1 x.2 = node y.1 y.2 → x = y)
    (equal : collapse node fuel left = collapse node fuel right) : left = right := by
  induction fuel generalizing left right with
  | zero => exact equal
  | succ fuel ih =>
    unfold collapse at equal
    unfold collapsePairs at inj
    by_cases long : left.length > 1
    · rw [if_pos long,if_pos (length ▸ long)] at equal
      rw [if_pos long,if_pos (length ▸ long)] at inj
      have levels : levelUp node left = levelUp node right := by
        refine ih (by rw [levelUp_length node,levelUp_length node,length]) ?_ equal
        intro x hx y hy
        exact inj x (List.mem_append_right _ hx) y (List.mem_append_right _ hy)
      refine levelUp_injective length ?_ levels
      intro x hx y hy
      exact inj x (List.mem_append_left _ hx) y (List.mem_append_left _ hy)
    · rw [if_neg long,if_neg (length ▸ long)] at equal
      exact equal

-- An odd level and the same level with its last element written out twice
-- have one and the same next level.
theorem levelUp_repeat {level : List α} (even : level.length % 2 = 0) (a : α) :
    levelUp node (level ++ [a,a]) = levelUp node (level ++ [a]) := by
  induction level using levelUp.induct with
  | case1 => rfl
  | case2 => simp at even
  | case3 x y rest ih =>
    simp only [List.length_cons] at even
    simp only [List.cons_append,levelUp,ih (by omega)]

theorem collapse_repeat (node : α → α → α) {level : List α} (even : level.length % 2 = 0) (inner : level ≠ []) (a : α) :
    collapse node (level.length + 2) (level ++ [a,a]) = collapse node (level.length + 1) (level ++ [a]) := by
  have positive := List.length_pos_iff.mpr inner
  have shorter := levelUp_length node (level ++ [a])
  have long : (level ++ [a]).length > 1 := by simp only [List.length_append,List.length_singleton]; omega
  have longer : (level ++ [a,a]).length > 1 := by simp
  have left : collapse node (level.length + 2) (level ++ [a,a]) =
      collapse node (level.length + 1) (levelUp node (level ++ [a,a])) := if_pos longer
  have right : collapse node (level.length + 1) (level ++ [a]) =
      collapse node level.length (levelUp node (level ++ [a])) := if_pos long
  rw [left,right,levelUp_repeat even]
  apply collapse_enough
  simp only [List.length_append,List.length_singleton] at shorter
  omega

theorem map_injective_on {β : Type} {f : β → α} {left right : List β}
    (inj : ∀ x ∈ left, ∀ y ∈ right, f x = f y → x = y) (equal : left.map f = right.map f) : left = right := by
  induction left generalizing right with
  | nil => exact (List.map_eq_nil_iff.mp equal.symm).symm
  | cons x left ih =>
    cases right with
    | nil => cases equal
    | cons y right =>
      obtain ⟨here,later⟩ := List.cons.inj equal
      cases inj x (List.mem_cons_self) y (List.mem_cons_self) here
      rw [ih (fun x first y second => inj x (List.mem_cons_of_mem _ first) y (List.mem_cons_of_mem _ second)) later]

end PairTree
