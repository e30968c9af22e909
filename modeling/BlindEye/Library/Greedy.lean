import Mathlib.Data.List.Basic

-- A pass over a list that takes what the items taken so far leave room for, and
-- stops once `cap` of them are taken.
namespace Greedy

inductive Picks {α : Type} (admits : List α → α → Prop) (cap : Nat) : List α → List α → List α → Prop where
  | done : Picks admits cap taken [] []
  | full (reached : cap ≤ taken.length) : Picks admits cap taken items []
  | skip (refused : ¬ admits taken a) (later : Picks admits cap taken items chosen) : Picks admits cap taken (a :: items) chosen
  | take (room : taken.length < cap) (admitted : admits taken a) (later : Picks admits cap (taken ++ [a]) items chosen) :
      Picks admits cap taken (a :: items) (a :: chosen)

variable {α : Type} {admits : List α → α → Prop} {cap : Nat} {taken items chosen before front back : List α} {a : α}

theorem Picks.sublist (picks : Picks admits cap taken items chosen) : chosen.Sublist items := by
  induction picks with
  | done => exact .slnil
  | full => exact List.nil_sublist _
  | skip _ _ ih => exact ih.cons _
  | take _ _ _ ih => exact ih.cons_cons _

theorem Picks.few (picks : Picks admits cap taken items chosen) (room : taken.length ≤ cap) :
    taken.length + chosen.length ≤ cap := by
  induction picks with
  | done => exact room
  | full => exact room
  | skip _ _ ih => exact ih room
  | take below _ _ ih =>
    have later := ih (by rw [List.length_append]; exact below)
    rw [List.length_append] at later
    rw [List.length_cons]
    simp only [List.length_singleton] at later
    omega

-- Every item that is taken was admitted after those taken before it.
theorem Picks.admitted (picks : Picks admits cap taken items chosen) (split : chosen = before ++ a :: after) :
    admits (taken ++ before) a := by
  induction picks generalizing before with
  | done => exact absurd split (by simp)
  | full => exact absurd split (by simp)
  | skip _ _ ih => exact ih split
  | take _ admitted _ ih =>
    cases before with
    | nil =>
      obtain ⟨rfl,rfl⟩ := List.cons.inj split
      rwa [List.append_nil]
    | cons first before =>
      obtain ⟨rfl,rest⟩ := List.cons.inj split
      have later := ih rest
      rwa [List.append_assoc] at later

-- Every item is taken where it stands, or the pass was over or had no room for it.
theorem Picks.left (picks : Picks admits cap taken items chosen) (split : items = front ++ a :: back) :
    ∃ before after, chosen = before ++ after ∧ before.Sublist front ∧ after.Sublist (a :: back) ∧
      (a ∈ after ∨ cap ≤ taken.length + before.length ∨ ¬ admits (taken ++ before) a) := by
  induction picks generalizing front with
  | done => exact absurd split (by simp)
  | full reached => exact ⟨[],[],rfl,List.nil_sublist _,List.nil_sublist _,.inr (.inl reached)⟩
  | skip refused later ih =>
    cases front with
    | nil =>
      obtain ⟨rfl,rfl⟩ := List.cons.inj split
      refine ⟨[],_,rfl,.slnil,later.sublist.cons _,.inr (.inr ?_)⟩
      rwa [List.append_nil]
    | cons first front =>
      obtain ⟨rfl,rest⟩ := List.cons.inj split
      obtain ⟨before,after,same,sub,tail,fate⟩ := ih rest
      exact ⟨before,after,same,sub.cons _,tail,fate⟩
  | take _ _ later ih =>
    cases front with
    | nil =>
      obtain ⟨rfl,rfl⟩ := List.cons.inj split
      exact ⟨[],_,rfl,.slnil,later.sublist.cons_cons _,.inl List.mem_cons_self⟩
    | cons first front =>
      obtain ⟨rfl,rest⟩ := List.cons.inj split
      obtain ⟨before,after,rfl,sub,tail,fate⟩ := ih rest
      refine ⟨_ :: before,after,rfl,sub.cons_cons _,tail,?_⟩
      rw [List.length_append,List.append_assoc] at fate
      rw [List.length_cons]
      rcases fate with inside | full | refused
      · exact .inl inside
      · refine .inr (.inl ?_)
        simp only [List.length_singleton] at full
        omega
      · exact .inr (.inr refused)

end Greedy
