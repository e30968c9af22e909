import Mathlib

namespace ShortestPrefix

variable {α : Type} {weight : α → Nat} {items taken other : List α} {a : α} {rest : List α} {target later : Nat}

def weigh (weight : α → Nat) (items : List α) : Nat := (items.map weight).sum

-- What is taken from the front of a list until its weight reaches a target.
structure Shortest (weight : α → Nat) (target : Nat) (items taken : List α) : Prop where
  begins : taken <+: items
  covers : target ≤ weigh weight taken
  least : ∀ shorter, shorter <+: items → target ≤ weigh weight shorter → taken.length ≤ shorter.length

@[simp] theorem weigh_nil : weigh weight [] = 0 := rfl
@[simp] theorem weigh_cons : weigh weight (a :: items) = weight a + weigh weight items := by simp [weigh]

@[simp] theorem weigh_append : weigh weight (taken ++ items) = weigh weight taken + weigh weight items := by simp [weigh]

theorem weigh_le (begins : taken <+: items) : weigh weight taken ≤ weigh weight items := by
  obtain ⟨rest,rfl⟩ := begins
  simp [weigh]

theorem Shortest.unique (one : Shortest weight target items taken) (two : Shortest weight target items other) :
    taken = other := by
  have length := Nat.le_antisymm (one.least _ two.begins two.covers) (two.least _ one.begins one.covers)
  exact (List.prefix_of_prefix_length_le one.begins two.begins (Nat.le_of_eq length)).eq_of_length length

theorem shortest_zero : Shortest weight 0 items taken ↔ taken = [] := by
  constructor
  · intro shortest
    have length := shortest.least [] List.nil_prefix (Nat.zero_le _)
    exact List.length_eq_zero_iff.mp (Nat.le_zero.mp length)
  · rintro rfl
    exact ⟨List.nil_prefix,Nat.zero_le _,fun _ _ _ => Nat.zero_le _⟩

-- The first item is taken as long as something is wanted.
theorem shortest_cons (wanted : 0 < target) : Shortest weight target (a :: rest) taken ↔
    ∃ more, taken = a :: more ∧ Shortest weight (target - weight a) rest more := by
  constructor
  · intro shortest
    cases taken with
    | nil => exact absurd shortest.covers (Nat.not_le.mpr wanted)
    | cons first more =>
      obtain ⟨rfl,begins⟩ := List.cons_prefix_cons.mp shortest.begins
      have covers := shortest.covers
      rw [weigh_cons] at covers
      refine ⟨more,rfl,begins,by omega,?_⟩
      intro shorter inside enough
      have length := shortest.least (first :: shorter) (List.cons_prefix_cons.mpr ⟨rfl,inside⟩)
        (by rw [weigh_cons]; omega)
      exact Nat.le_of_succ_le_succ length
  · intro split
    obtain ⟨more,rfl,shortest⟩ := split
    have covers := shortest.covers
    refine ⟨List.cons_prefix_cons.mpr ⟨rfl,shortest.begins⟩,by rw [weigh_cons]; omega,?_⟩
    intro shorter inside enough
    cases shorter with
    | nil => exact absurd enough (Nat.not_le.mpr wanted)
    | cons first shorter =>
      obtain ⟨rfl,begins⟩ := List.cons_prefix_cons.mp inside
      rw [weigh_cons] at enough
      exact Nat.succ_le_succ (shortest.least shorter begins (by omega))

theorem shortest_exists : (∃ taken, Shortest weight target items taken) ↔ target ≤ weigh weight items := by
  constructor
  · intro found
    obtain ⟨taken,shortest⟩ := found
    exact Nat.le_trans shortest.covers (weigh_le shortest.begins)
  · intro enough
    induction items generalizing target with
    | nil =>
      obtain rfl := Nat.le_zero.mp enough
      exact ⟨[],shortest_zero.mpr rfl⟩
    | cons a rest ih =>
      rcases Nat.eq_zero_or_pos target with rfl | wanted
      · exact ⟨[],shortest_zero.mpr rfl⟩
      · rw [weigh_cons] at enough
        obtain ⟨more,shortest⟩ := ih (by omega : target - weight a ≤ weigh weight rest)
        exact ⟨a :: more,(shortest_cons wanted).mpr ⟨more,rfl,shortest⟩⟩

-- The shortest prefix as a function: everything, where the weight does not suffice.
def cover (weight : α → Nat) : Nat → List α → List α
  | _,[] => []
  | target,a :: rest => if target = 0 then [] else a :: cover weight (target - weight a) rest

theorem shortest_cover : Shortest weight target items taken ↔
    target ≤ weigh weight items ∧ taken = cover weight target items := by
  have covered : ∀ {items target}, target ≤ weigh weight items → Shortest weight target items (cover weight target items) := by
    intro items
    induction items with
    | nil =>
      intro target enough
      obtain rfl := Nat.le_zero.mp enough
      exact shortest_zero.mpr rfl
    | cons a rest ih =>
      intro target enough
      rw [cover]
      split
      · rename_i none
        subst none
        exact shortest_zero.mpr rfl
      · rename_i wanted
        rw [weigh_cons] at enough
        exact (shortest_cons (Nat.pos_of_ne_zero wanted)).mpr ⟨_,rfl,ih (by omega)⟩
  constructor
  · intro shortest
    have enough := shortest_exists.mp ⟨taken,shortest⟩
    exact ⟨enough,shortest.unique (covered enough)⟩
  · intro both
    obtain ⟨enough,rfl⟩ := both
    exact covered enough

-- A larger target takes no fewer items.
theorem Shortest.mono (one : Shortest weight target items taken) (two : Shortest weight later items other)
    (more : target ≤ later) : taken.length ≤ other.length :=
  one.least other two.begins (Nat.le_trans more two.covers)

theorem cover_mono (more : target ≤ later) : (cover weight target items).length ≤ (cover weight later items).length := by
  induction items generalizing target later with
  | nil => exact Nat.le_refl _
  | cons a rest ih =>
    rw [cover,cover]
    split
    · exact Nat.zero_le _
    · rw [if_neg (by omega)]
      exact Nat.succ_le_succ (ih (Nat.sub_le_sub_right more _))

-- Where the items taken set the next target, their number grows by at least one a
-- round until it stops.
theorem climbs {step : Nat → Nat} (mono : Monotone step) (climbing : step^[n] x < step^[n + 1] x) :
    x + n < step^[n + 1] x := by
  induction n with
  | zero => exact climbing
  | succ n ih =>
    rw [Function.iterate_succ_apply' step (n + 1),Function.iterate_succ_apply' step n] at climbing
    have before : step^[n] x < step^[n + 1] x := by
      by_contra stopped
      have still := mono (Nat.not_lt.mp stopped)
      rw [Function.iterate_succ_apply' step n] at still
      omega
    have now := ih before
    rw [Function.iterate_succ_apply' step n] at now
    rw [Function.iterate_succ_apply' step (n + 1),Function.iterate_succ_apply' step n]
    omega

end ShortestPrefix
