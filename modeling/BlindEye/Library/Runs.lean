import Mathlib.Data.List.Induction

namespace Runs

variable {σ α ρ : Type}

-- A run is the list of calls that came back, each with its answer. A call whose
-- step is `none` never came back, so no run contains it. `meets` restricts the
-- calls that a run may make; it is `fun _ _ => True` for arbitrary callers.
inductive Run (step : σ → α → Option (σ × ρ)) (meets : σ → α → Prop) : σ → List (α × ρ) → σ → Prop where
  | nil : Run step meets s [] s
  | step : Run step meets origin earlier s → meets s a → step s a = some (next,answer) →
      Run step meets origin (earlier ++ [(a,answer)]) next

variable {step : σ → α → Option (σ × ρ)} {meets : σ → α → Prop} {origin s next : σ}

theorem Run.weaken {wider : σ → α → Prop} (wide : ∀ s a, meets s a → wider s a)
    (path : Run step meets origin calls s) : Run step wider origin calls s := by
  induction path with
  | nil => exact .nil
  | step _ allowed ran ih => exact .step ih (wide _ _ allowed) ran

-- A run whose calls all have a property is a run restricted to it.
theorem Run.only {wanted : α → Prop} (path : Run step meets origin calls s) (each : ∀ call ∈ calls, wanted call.1) :
    Run step (fun _ a => wanted a) origin calls s := by
  induction path with
  | nil => exact .nil
  | step _ _ ran ih =>
    apply Run.step (ih fun call member => each call (List.mem_append_left _ member)) _ ran
    exact each _ (List.mem_append_right _ (List.mem_singleton_self _))

-- A run of the calls that a guard lets through.
theorem Run.guarded [∀ s a, Decidable (meets s a)]
    (path : Run (fun s a => if meets s a then step s a else none) (fun _ _ => True) origin calls s) :
    Run step meets origin calls s := by
  induction path with
  | nil => exact .nil
  | step _ _ ran ih =>
    split at ran
    · rename_i allowed
      exact .step ih allowed ran
    · cases ran

theorem Run.trans (one : Run step meets origin xs s) (two : Run step meets s ys next) :
    Run step meets origin (xs ++ ys) next := by
  induction two with
  | nil => rwa [List.append_nil]
  | step _ allowed ran ih =>
    rw [← List.append_assoc]
    exact .step ih allowed ran

-- A call of a run, with the runs before it and after it.
theorem Run.around (path : Run step meets origin calls next) (split : calls = xs ++ (a,answer) :: ys) :
    ∃ s mid, Run step meets origin xs s ∧ meets s a ∧ step s a = some (mid,answer) ∧ Run step meets mid ys next := by
  induction path generalizing ys with
  | nil => simp at split
  | @step earlier s b last reply before allowed ran ih =>
    rcases List.eq_nil_or_concat ys with rfl | ⟨rest,final,rfl⟩
    · obtain ⟨rfl,same⟩ := List.append_inj' split rfl
      cases same
      exact ⟨s,last,before,allowed,ran,.nil⟩
    · rw [List.concat_eq_append] at split ⊢
      rw [← List.cons_append,← List.append_assoc] at split
      obtain ⟨prior,same⟩ := List.append_inj' split rfl
      cases same
      obtain ⟨t,mid,first,meets,went,rest⟩ := ih prior
      exact ⟨t,mid,first,meets,went,.step rest allowed ran⟩

theorem run_invariant {motive : σ → Prop} (start : motive origin)
    (preserved : ∀ {s a next answer}, motive s → meets s a → step s a = some (next,answer) → motive next)
    (path : Run step meets origin calls s) : motive s := by
  induction path with
  | nil => exact start
  | step _ allowed ran ih => exact preserved ih allowed ran

-- A reflexive and transitive relation that every step respects relates the two
-- ends of a run.
theorem run_relation {r : σ → σ → Prop} (refl : ∀ s, r s s)
    (trans : ∀ {a b c}, r a b → r b c → r a c)
    (single : ∀ {s a next answer}, meets s a → step s a = some (next,answer) → r s next)
    (path : Run step meets origin calls s) : r origin s := by
  induction path with
  | nil => exact refl _
  | step _ allowed ran ih => exact trans ih (single allowed ran)

-- Where every step of one system is a run of another that keeps the two related, so is
-- every run.
theorem run_simulated {τ β ρ' : Type} {step' : τ → β → Option (τ × ρ')} {meets' : τ → β → Prop} {start : τ}
    {related : σ → τ → Prop} (first : related origin start)
    (single : ∀ {s a next answer t}, related s t → meets s a → step s a = some (next,answer) →
      ∃ calls t', Run step' meets' t calls t' ∧ related next t')
    (path : Run step meets origin calls s) : ∃ calls t, Run step' meets' start calls t ∧ related s t := by
  induction path with
  | nil => exact ⟨[],start,.nil,first⟩
  | step _ allowed ran ih =>
    obtain ⟨earlier,t,before,now⟩ := ih
    obtain ⟨later,t',after,next⟩ := single now allowed ran
    exact ⟨_,t',before.trans after,next⟩

-- What the calls of a run add up to.
def total (f : α × ρ → Nat) : List (α × ρ) → Nat
  | [] => 0
  | call :: rest => f call + total f rest

@[simp] theorem total_nil (f : α × ρ → Nat) : total f [] = 0 := rfl
@[simp] theorem total_single (f : α × ρ → Nat) (call : α × ρ) : total f [call] = f call := rfl

@[simp] theorem total_append (f : α × ρ → Nat) (xs ys : List (α × ρ)) : total f (xs ++ ys) = total f xs + total f ys := by
  induction xs with
  | nil => simp
  | cons call rest ih =>
    rw [List.cons_append,total,total,ih]
    omega

theorem total_zero (calls : List (α × ρ)) : total (fun _ => 0) calls = 0 := by
  induction calls with
  | nil => rfl
  | cons call rest ih => rw [total,ih]

-- Where every step pays its cost from what it gains and what the state has saved,
-- so does the run.
theorem run_budget {cost gain : α × ρ → Nat} (savings : σ → Nat)
    (single : ∀ {s a next answer}, meets s a → step s a = some (next,answer) →
      cost (a,answer) + savings next ≤ savings s + gain (a,answer))
    (path : Run step meets origin calls s) : total cost calls + savings s ≤ savings origin + total gain calls := by
  induction path with
  | nil => simp
  | step _ allowed ran ih =>
    have here := single allowed ran
    simp only [total_append,total_single]
    omega

theorem run_spends {cost : α × ρ → Nat} (savings : σ → Nat)
    (single : ∀ {s a next answer}, meets s a → step s a = some (next,answer) → cost (a,answer) + savings next ≤ savings s)
    (path : Run step meets origin calls s) : total cost calls + savings s ≤ savings origin := by
  have budget : total cost calls + savings s ≤ savings origin + total (fun _ => 0) calls := run_budget savings single path
  rwa [total_zero] at budget

theorem run_unique {wider : σ → α → Prop} (one : Run step meets origin calls s)
    (two : Run step wider origin calls next) : s = next := by
  induction one generalizing next with
  | nil =>
    generalize empty : ([] : List (α × ρ)) = calls at two
    cases two with
    | nil => rfl
    | step => simp at empty
  | @step earlier s a last answer _ _ ran ih =>
    generalize items : earlier ++ [(a,answer)] = calls at two
    cases two with
    | nil => simp at items
    | step before _ ran' =>
      obtain ⟨rfl,single⟩ := List.append_inj' items rfl
      cases single
      cases ih before
      rw [ran] at ran'
      cases ran'
      rfl

-- A step from a state in which `motive` holds keeps it exactly when it meets the
-- condition. Then `motive` holds all along a run exactly when every step does.
-- `within` is what is assumed of the calls of the run and holds of fewer calls.
theorem run_exact_within {base : σ → α → Prop} {motive : List (α × ρ) → σ → Prop} {within : List (α × ρ) → Prop}
    (fewer : ∀ {earlier later}, within (earlier ++ later) → within earlier) (start : motive [] origin)
    (exact : ∀ {calls s a next answer}, Run step base origin calls s → motive calls s → base s a →
      within (calls ++ [(a,answer)]) → step s a = some (next,answer) → (motive (calls ++ [(a,answer)]) next ↔ meets s a))
    (inside : within calls) (path : Run step base origin calls s) :
    (∀ earlier later mid, calls = earlier ++ later → Run step base origin earlier mid → motive earlier mid) ↔
      Run step (fun s a => base s a ∧ meets s a) origin calls s := by
  constructor
  · intro along
    induction path with
    | nil => exact .nil
    | @step earlier s a next answer prior allowed ran ih =>
      have before := ih (fewer inside) fun first later mid split run =>
        along first (later ++ [(a,answer)]) mid (by rw [split,List.append_assoc]) run
      have here := along earlier _ s rfl prior
      have there := along _ [] next (List.append_nil _).symm (.step prior allowed ran)
      exact .step before ⟨allowed,(exact prior here allowed inside ran).mp there⟩ ran
  · intro allowed
    induction allowed with
    | nil =>
      intro earlier later mid split run
      obtain ⟨rfl,_⟩ := List.append_eq_nil_iff.mp split.symm
      cases run_unique path run
      exact start
    | @step done s a next answer before meets ran ih =>
      have prior := before.weaken fun _ _ both => both.1
      have along := ih (fewer inside) prior
      intro earlier later mid split run
      rcases List.eq_nil_or_concat later with rfl | ⟨later,last,rfl⟩
      · rw [List.append_nil] at split
        subst split
        cases run_unique (.step prior meets.1 ran) run
        have here := along done [] s (List.append_nil _).symm prior
        exact (exact prior here meets.1 inside ran).mpr meets.2
      · rw [List.concat_eq_append,← List.append_assoc] at split
        exact along earlier later mid (List.append_inj' split rfl).1 run

theorem run_exact {motive : List (α × ρ) → σ → Prop} (start : motive [] origin)
    (exact : ∀ {calls s a next answer}, Run step (fun _ _ => True) origin calls s → motive calls s →
      step s a = some (next,answer) → (motive (calls ++ [(a,answer)]) next ↔ meets s a))
    (path : Run step (fun _ _ => True) origin calls s) :
    (∀ earlier later mid, calls = earlier ++ later → Run step (fun _ _ => True) origin earlier mid →
      motive earlier mid) ↔ Run step meets origin calls s := by
  rw [run_exact_within (fun _ => trivial) start (fun run now _ _ => exact run now) trivial path]
  exact ⟨Run.weaken fun _ _ both => both.2,Run.weaken fun _ _ met => ⟨trivial,met⟩⟩

-- The calls of a list made one after the other, with the answers in order.
def feed (step : σ → α → Option (σ × ρ)) (s : σ) : List α → Option (σ × List ρ)
  | [] => some (s,[])
  | a :: rest => (step s a).bind fun (next,answer) =>
      (feed step next rest).map fun (last,answers) => (last,answer :: answers)

theorem feed_append (xs ys : List α) : feed step s (xs ++ ys) =
    (feed step s xs).bind fun (mid,before) =>
      (feed step mid ys).map fun (last,after) => (last,before ++ after) := by
  induction xs generalizing s with
  | nil => simp [feed]
  | cons x xs ih =>
    simp only [List.cons_append,feed]
    cases ran : step s x with
    | none => rfl
    | some pair =>
      obtain ⟨mid,answer⟩ := pair
      simp only [Option.bind_some,ih]
      cases feed step mid xs with
      | none => rfl
      | some pair => simp [Option.map_map,Function.comp_def]

theorem feed_run (fed : feed step s calls = some (next,answers)) :
    Run step (fun _ _ => True) s (calls.zip answers) next ∧ calls.length = answers.length := by
  induction calls using List.reverseRecOn generalizing next answers with
  | nil =>
    simp only [feed,Option.some.injEq,Prod.mk.injEq] at fed
    obtain ⟨rfl,rfl⟩ := fed
    exact ⟨.nil,rfl⟩
  | append_singleton calls a ih =>
    rw [feed_append] at fed
    cases earlier : feed step s calls with
    | none => simp [earlier] at fed
    | some pair =>
      obtain ⟨mid,before⟩ := pair
      obtain ⟨path,length⟩ := ih earlier
      cases ran : step mid a with
      | none => simp [earlier,feed,ran] at fed
      | some pair =>
        obtain ⟨last,answer⟩ := pair
        simp only [earlier,feed,ran,Option.bind_some,Option.map_some,Option.some.injEq,Prod.mk.injEq] at fed
        obtain ⟨rfl,rfl⟩ := fed
        refine ⟨?_,by simp [length]⟩
        rw [List.zip_append length]
        exact .step path trivial ran

-- Answers that are a function of the call say no more than that function.
theorem zip_answers {f : α → Option ρ} {calls : List α} {answers : List ρ} (equal : calls.map f = answers.map some) :
    (a,r) ∈ calls.zip answers ↔ a ∈ calls ∧ f a = some r := by
  induction calls generalizing answers with
  | nil => simp
  | cons call rest ih =>
    cases answers with
    | nil => cases equal
    | cons answer later =>
      obtain ⟨here,there⟩ := List.cons.inj equal
      rw [List.zip_cons_cons,List.mem_cons,List.mem_cons,ih there,Prod.mk.injEq]
      constructor
      · intro either
        rcases either with ⟨rfl,rfl⟩ | ⟨member,same⟩
        · exact ⟨.inl rfl,here⟩
        · exact ⟨.inr member,same⟩
      · intro ⟨member,same⟩
        rcases member with rfl | member
        · exact .inl ⟨rfl,Option.some.inj (same.symm.trans here)⟩
        · exact .inr ⟨member,same⟩

end Runs
