import BlindEye.Library.Schedules
import BlindEye.MinerSessions

namespace BlindEye.MiningProgress
open MiningSearch MinerSessions

variable {c : Crates} {x y : Search} {w worker : Worker} {i j : Nat} {m : UInt64}

-- The turns that a worker still takes once the flag is up.
def rest : WorkerStep → Nat
  | .count => 6
  | .loadRunning => 5
  | .loadSession => 4
  | .loadFound | .storeFound => 3
  | .send => 2
  | .drop => 1
  | .returned => 0

-- The same of the thread that waits for them, which idles as long as there is no news.
def waits (x : Search) : Nat :=
  match x.waiting with
  | .loadRunning => x.workers.length + if x.channel = [] then 7 else 6
  | .loadSession => x.workers.length + if x.channel = [] then 7 else 5
  | .receive => x.workers.length + if x.channel = [] then 7 else 4
  | .storeFound _ => x.workers.length + 3
  | .join _ joined => x.workers.length - joined + 1
  | .returned _ => 0

-- The turns of a worker until it has tried the nonce `m`.
def ahead (m : UInt64) (w : Worker) : Nat :=
  8 * (m.toNat - w.nonce.toNat) + match w.next with
    | .loadRunning => 7
    | .loadSession => 6
    | .loadFound => 5
    | .count => 4
    | .storeFound => 3
    | .send | .drop | .returned => 0

-- The worker whose nonces `m` is among.
def finder (m : UInt64) (x : Search) : Nat := m.toNat % x.workers.length

def far (m : UInt64) (x : Search) : Nat :=
  if x.found then (x.workers.map fun w => rest w.next).sum + waits x
  else 7 * x.workers.length + 8 + (x.workers[finder m x]?.map (ahead m)).getD 0

-- Who brings the search on; `none` is the thread that waits.
def helper (m : UInt64) (x : Search) : Option Nat :=
  if x.found then
    match x.waiting with
    | .loadRunning | .loadSession | .receive =>
      if x.channel = [] then some (x.workers.findIdx fun w => w.next = .send) else none
    | .storeFound _ | .returned _ => none
    | .join _ joined =>
      match x.workers[joined]? with
      | none => none
      | some w => if w.next = .returned then none else some joined
  else some (finder m x)

structure Lucky (c : Crates) (m : UInt64) (x : Search) : Prop extends Steady c x where
  hits : x.template.hits c m = true
  within : ∃ w, x.workers[finder m x]? = some w ∧ w.nonce.toNat ≤ m.toNat ∧
    w.nonce.toNat % x.workers.length = finder m x

theorem sum_set (f : Worker → Nat) (worker : Worker) {workers : List Worker} (held : workers[i]? = some w) :
    ((workers.set i worker).map f).sum + f w = (workers.map f).sum + f worker := by
  induction workers generalizing i with
  | nil => simp at held
  | cons v rest ih =>
    cases i with
    | zero =>
      obtain rfl : v = w := by simpa using held
      simp only [List.set_cons_zero,List.map_cons,List.sum_cons]
      omega
    | succ i =>
      have step := ih (by simpa using held)
      simp only [List.set_cons_succ,List.map_cons,List.sum_cons]
      omega

theorem waits_le (same : y.waiting = x.waiting) (crew : y.workers.length = x.workers.length)
    (news : y.channel = [] → x.channel = []) : waits y ≤ waits x := by
  unfold waits
  rw [same,crew]
  split
  all_goals first
    | exact Nat.le_refl _
    | split_ifs <;> first | omega | (rename_i empty news'; exact absurd (news empty) news')

theorem waits_bound (x : Search) : waits x ≤ x.workers.length + 7 := by
  unfold waits
  split
  all_goals first | omega | split_ifs <;> omega

theorem rest_bound (step : WorkerStep) : rest step ≤ 6 := by cases step <;> decide

theorem far_found (found : x.found = true) : far m x ≤ 7 * x.workers.length + 7 := by
  have all : (x.workers.map fun w => rest w.next).sum ≤ x.workers.length * 6 := by
    have bound := List.sum_le_card_nsmul (x.workers.map fun w => rest w.next) 6 (by
      intro r member
      obtain ⟨w,_,rfl⟩ := List.mem_map.mp member
      exact rest_bound w.next)
    simpa using bound
  have waiting := waits_bound x
  rw [far,if_pos found]
  omega

-- Every turn with the flag up is one less.
theorem put_far (found : x.found = true) (held : x.workers[i]? = some w) (flag : y.found = true)
    (moved : y.workers = x.workers.set i worker) (same : y.waiting = x.waiting) (news : y.channel = [] → x.channel = [])
    (less : rest worker.next < rest w.next) : far m y < far m x := by
  have sums := sum_set (fun w => rest w.next) worker held
  have waiting := waits_le same (by rw [moved,List.length_set]) news
  rw [far,far,if_pos found,if_pos flag,moved]
  omega

-- Before that a turn of the finder is one less, and the others leave it in peace.
theorem put_near (off : x.found = false) (held : x.workers[i]? = some w)
    (less : i = finder m x → ahead m worker < ahead m w) : far m (x.put i worker) < far m x ∨
      (helper m x ≠ some i ∧ far m (x.put i worker) = far m x ∧ helper m (x.put i worker) = helper m x) := by
  have place : finder m (x.put i worker) = finder m x := by rw [finder,finder,put_workers,List.length_set]
  by_cases own : i = finder m x
  · left
    have step := less own
    have inside := (List.getElem?_eq_some_iff.mp held).1
    rw [far,far,put_found,off,if_neg (by decide),if_neg (by decide),place,put_workers,List.length_set,← own,held,
      List.getElem?_set_self inside,Option.map_some,Option.map_some,Option.getD_some,Option.getD_some]
    omega
  · right
    refine ⟨?_,?_,?_⟩
    · rw [helper,off,if_neg (by decide)]
      exact fun same => own (Option.some.inj same).symm
    · rw [far,far,put_found,off,if_neg (by decide),if_neg (by decide),place,put_workers,List.length_set,
        List.getElem?_set_ne own]
    · rw [helper,helper,put_found,off,if_neg (by decide),if_neg (by decide),place]

-- The finder does not run past its nonce.
theorem finder_nonce (lucky : Lucky c m x) (held : x.workers[finder m x]? = some w) :
    w.nonce.toNat ≤ m.toNat ∧ w.nonce.toNat % x.workers.length = finder m x := by
  obtain ⟨v,there,below,same⟩ := lucky.within
  obtain rfl := Option.some.inj (there.symm.trans held)
  exact ⟨below,same⟩

theorem step_within {n a b : Nat} (below : a ≤ b) (same : a % n = b % n) (other : a ≠ b) : a + n ≤ b := by
  have divides : n ∣ b - a := (Nat.modEq_iff_dvd' below).mp same
  have gap := Nat.le_of_dvd (by omega) divides
  omega

-- A miss takes the finder to its next nonce, which is not behind `m`.
theorem finder_misses (lucky : Lucky c m x) (held : x.workers[finder m x]? = some w) (miss : ¬x.template.hits c w.nonce = true) :
    (w.nonce + .ofNat x.workers.length).toNat = w.nonce.toNat + x.workers.length ∧
      w.nonce.toNat + x.workers.length ≤ m.toNat := by
  obtain ⟨below,same⟩ := finder_nonce lucky held
  have other : w.nonce.toNat ≠ m.toNat := by
    intro equal
    rw [UInt64.toNat_inj.mp equal] at miss
    exact miss lucky.hits
  have inside := step_within below same other
  have word := m.toNat_lt
  refine ⟨?_,inside⟩
  rw [UInt64.toNat_add,UInt64.toNat_ofNat_of_lt' (by rw [UInt64.size]; omega)]
  exact Nat.mod_eq_of_lt (by omega)

theorem work_far (lucky : Lucky c m x) (held : x.workers[i]? = some w) (ran : x.work c true x.currentSession i w = some y) :
    far m y < far m x ∨ (helper m x ≠ some i ∧ far m y = far m x ∧ helper m y = helper m x) := by
  have member := List.mem_of_getElem? held
  unfold Search.work at ran
  by_cases found : x.found = true
  · left
    split at ran <;> rename_i here
    · cases ran
      exact put_far found held found rfl rfl id (by simp [here,rest])
    · rw [if_pos rfl] at ran
      cases ran
      exact put_far found held found rfl rfl id (by simp [here,rest])
    · rw [if_pos found] at ran
      cases ran
      exact put_far found held found rfl rfl id (by simp [here,rest])
    · split at ran <;> cases ran
      · exact put_far found held found rfl rfl id (by simp [here,rest])
      · exact put_far found held found rfl rfl id (by simp [here,rest])
    · cases ran
      exact put_far found held rfl rfl rfl id (by simp [here,rest])
    · cases ran
      refine put_far found held found rfl rfl ?_ (by simp [here,rest])
      intro empty
      exact absurd empty (List.append_ne_nil_of_right_ne_nil _ (List.cons_ne_nil _ _))
    · cases ran
      exact put_far found held found rfl rfl id (by simp [here,rest])
    · cases ran
  · have off := Bool.eq_false_iff.mpr found
    split at ran <;> rename_i here
    · cases ran
      exact put_near off held fun _ => by simp [ahead,here]
    · rw [if_pos rfl] at ran
      cases ran
      exact put_near off held fun _ => by simp [ahead,here]
    · rw [if_neg found] at ran
      cases ran
      exact put_near off held fun _ => by simp [ahead,here]
    · split at ran <;> rename_i hit
      · cases ran
        exact put_near off held fun _ => by simp [ahead,here]
      · cases ran
        refine put_near off held fun own => ?_
        subst own
        obtain ⟨next,inside⟩ := finder_misses lucky held hit
        have crew : 0 < x.workers.length := List.length_pos_iff.mpr lucky.crew
        simp only [ahead,here,next]
        omega
    · left
      cases ran
      have flagged := far_found (m := m) (x := { x with found := true }.put i { w with next := .send }) rfl
      rw [put_workers,List.length_set] at flagged
      rw [far.eq_def m x,if_neg found]
      dsimp only at flagged
      omega
    · exact absurd (lucky.flagged w member (.inl here)) found
    · exact absurd (lucky.flagged w member (.inr (.inl here))) found
    · cases ran

theorem Lucky.put (lucky : Lucky c m x) (held : x.workers[i]? = some w) (steady : Steady c y)
    (template : y.template = x.template) (moved : y.workers = x.workers.set i worker)
    (nonce : i = finder m x → worker.nonce.toNat ≤ m.toNat ∧ worker.nonce.toNat % x.workers.length = finder m x) :
    Lucky c m y := by
  have crew : y.workers.length = x.workers.length := by rw [moved,List.length_set]
  have place : finder m y = finder m x := by rw [finder,finder,crew]
  refine ⟨steady,by rw [template]; exact lucky.hits,?_⟩
  rw [place,crew,moved]
  by_cases own : i = finder m x
  · refine ⟨worker,?_,nonce own⟩
    rw [← own,List.getElem?_set_self (List.getElem?_eq_some_iff.mp held).1]
  · rw [List.getElem?_set_ne own]
    exact lucky.within

theorem work_lucky (lucky : Lucky c m x) (held : x.workers[i]? = some w)
    (ran : x.work c true x.currentSession i w = some y) : Lucky c m y := by
  have steady := work_steady lucky.toSteady held ran
  have same : i = finder m x → w.nonce.toNat ≤ m.toNat ∧ w.nonce.toNat % x.workers.length = finder m x := by
    rintro rfl
    exact finder_nonce lucky held
  unfold Search.work at ran
  split at ran
  case h_4 =>
    split at ran <;> rename_i hit
    · cases ran
      exact lucky.put held steady rfl rfl same
    · cases ran
      refine lucky.put held steady rfl rfl fun own => ?_
      have there := same own
      subst own
      obtain ⟨next,inside⟩ := finder_misses lucky held hit
      rw [next,Nat.add_mod_right]
      exact ⟨inside,there.2⟩
  case h_8 => cases ran
  all_goals
    cases ran
    exact lucky.put held steady rfl rfl same

-- One turn of the thread that waits.
theorem wait_far (lucky : Lucky c m x) (ran : x.wait true x.currentSession = some y) :
    far m y < far m x ∨ (helper m x ≠ none ∧ far m y = far m x ∧ helper m y = helper m x) := by
  unfold Search.wait at ran
  by_cases found : x.found = true
  · have near : ∀ {z : Search}, z.found = true → z.workers = x.workers → waits z < waits x → far m z < far m x := by
      intro z flag crew less
      rw [far,far,if_pos found,if_pos flag,crew]
      omega
    split at ran <;> rename_i here
    · cases ran
      by_cases empty : x.channel = []
      · refine .inr ⟨?_,?_,?_⟩
        · simp [helper,found,here,empty]
        · simp [far,found,waits,here,empty]
        · simp [helper,found,here,empty]
      · exact .inl (near found rfl (by simp [waits,here,empty]))
    · rw [if_pos rfl] at ran
      cases ran
      by_cases empty : x.channel = []
      · refine .inr ⟨?_,?_,?_⟩
        · simp [helper,found,here,empty]
        · simp [far,found,waits,here,empty]
        · simp [helper,found,here,empty]
      · exact .inl (near found rfl (by simp [waits,here,empty]))
    · split at ran <;> rename_i items
      · cases ran
        exact .inl (near found rfl (by simp [waits,here,items]))
      · cases ran
        exact .inl (near found rfl (by simp [waits,here,items]))
      · rw [lucky.company (by rw [here]; rfl) items] at ran
        cases ran
        refine .inr ⟨?_,?_,?_⟩
        · simp [helper,found,here,items]
        · simp [far,found,waits,here,items]
        · simp [helper,found,here,items]
    · cases ran
      exact .inl (near rfl rfl (by simp [waits,here]))
    · split at ran <;> rename_i place
      · cases ran
        exact .inl (near found rfl (by simp [waits,here]))
      · split at ran
        · cases ran
          have inside := (List.getElem?_eq_some_iff.mp place).1
          refine .inl (near found rfl ?_)
          simp only [waits,here]
          omega
        · cases ran
    · cases ran
  · have off := Bool.eq_false_iff.mpr found
    have still : ∀ {z : Search}, z.found = false → z.workers = x.workers →
        far m z < far m x ∨ (helper m x ≠ none ∧ far m z = far m x ∧ helper m z = helper m x) := by
      intro z flag crew
      refine .inr ⟨?_,?_,?_⟩
      · simp [helper,off]
      · simp [far,off,flag,finder,crew]
      · simp [helper,off,flag,finder,crew]
    split at ran
    · cases ran
      exact still off rfl
    · cases ran
      exact still off rfl
    · split at ran
      · cases ran
        exact still off rfl
      · cases ran
        exact still off rfl
      · split at ran <;> cases ran <;> exact still off rfl
    · left
      cases ran
      rename_i result _
      have flagged := far_found (m := m) (x := { x with found := true, waiting := .join result 0 }) rfl
      rw [far.eq_def m x,if_neg found]
      dsimp only at flagged
      omega
    · rename_i here
      exact absurd (lucky.raised (by rw [here]; rfl)) found
    · cases ran

theorem wait_lucky (lucky : Lucky c m x) (ran : x.wait true x.currentSession = some y) : Lucky c m y := by
  obtain ⟨_,template,crew⟩ := wait_parts ran
  refine ⟨wait_steady lucky.toSteady ran,by rw [template]; exact lucky.hits,?_⟩
  rw [finder,crew]
  exact lucky.within

theorem work_crew (ran : x.work c running sessionId i w = some y) : y.workers.length = x.workers.length := by
  unfold Search.work at ran
  split at ran
  case h_4 => split at ran <;> cases ran <;> exact List.length_set
  case h_8 => cases ran
  all_goals
    cases ran
    exact List.length_set

theorem work_moves (held : w.next ≠ .returned) : ∃ y, x.work c true x.currentSession i w = some y := by
  unfold Search.work
  split
  case h_4 => split <;> exact ⟨_,rfl⟩
  case h_8 => contradiction
  all_goals exact ⟨_,rfl⟩

theorem sender {workers : List Worker} (member : w ∈ workers) (sends : w.next = .send) :
    ∃ v, workers[workers.findIdx fun w => w.next = .send]? = some v ∧ v.next = .send := by
  have inside : workers.findIdx (fun w => w.next = .send) < workers.length :=
    List.findIdx_lt_length_of_exists ⟨w,member,decide_eq_true sends⟩
  have found := List.findIdx_getElem (w := inside)
  exact ⟨_,List.getElem?_eq_getElem inside,of_decide_eq_true found⟩

-- The turn of the helper is not lost.
theorem helper_moves (lucky : Lucky c m x) (under : ∀ result, x.waiting ≠ .returned result) :
    (∀ j, helper m x = some j → ∃ w y, x.workers[j]? = some w ∧ x.work c true x.currentSession j w = some y) ∧
      (helper m x = none → ∃ y, x.wait true x.currentSession = some y) := by
  have worker : ∀ {j w}, x.workers[j]? = some w → w.next ≠ .returned →
      ∃ w y, x.workers[j]? = some w ∧ x.work c true x.currentSession j w = some y := by
    intro j w held next
    obtain ⟨y,ran⟩ := work_moves next
    exact ⟨w,y,held,ran⟩
  by_cases found : x.found = true
  · -- With no news in the channel its sender is the helper.
    have idle : outcome x.waiting = none → x.channel = [] → ∃ w y,
        x.workers[x.workers.findIdx fun w => w.next = .send]? = some w ∧
          x.work c true x.currentSession (x.workers.findIdx fun w => w.next = .send) w = some y := by
      intro waits empty
      obtain ⟨v,member,next⟩ := (lucky.news found waits).resolve_left (not_not.mpr empty)
      obtain ⟨w,held,sends⟩ := sender member next
      exact worker held (by rw [sends]; decide)
    cases here : x.waiting with
    | loadRunning | loadSession =>
      refine ⟨?_,fun _ => by simp only [Search.wait,here]; exact ⟨_,rfl⟩⟩
      intro j helps
      by_cases empty : x.channel = []
      · obtain rfl : _ = j := by simpa [helper,found,here,empty] using helps
        exact idle (by rw [here]; rfl) empty
      · simp [helper,found,here,empty] at helps
    | receive =>
      refine ⟨?_,fun _ => ?_⟩
      · intro j helps
        by_cases empty : x.channel = []
        · obtain rfl : _ = j := by simpa [helper,found,here,empty] using helps
          exact idle (by rw [here]; rfl) empty
        · simp [helper,found,here,empty] at helps
      · simp only [Search.wait,here]
        split
        · exact ⟨_,rfl⟩
        · exact ⟨_,rfl⟩
        · split <;> exact ⟨_,rfl⟩
    | storeFound result =>
      refine ⟨?_,fun _ => by simp only [Search.wait,here]; exact ⟨_,rfl⟩⟩
      intro j helps
      simp [helper,found,here] at helps
    | join result joined =>
      refine ⟨?_,?_⟩
      · intro j helps
        simp only [helper,found,here,if_true] at helps
        split at helps
        · cases helps
        · split at helps <;> rename_i held next
          · cases helps
          · cases helps
            exact worker held next
      · intro helps
        cases held : x.workers[joined]? with
        | none =>
          refine ⟨{ x with waiting := .returned result },?_⟩
          simp only [Search.wait,here,held]
        | some w =>
          by_cases next : w.next = .returned
          · refine ⟨{ x with waiting := .join result (joined + 1) },?_⟩
            simp only [Search.wait,here,held,next,if_true]
          · simp [helper,found,here,held,next] at helps
    | returned result => exact absurd here (under result)
  · obtain ⟨w,held,_⟩ := lucky.within
    have active : w.next ≠ .returned :=
      fun next => found (lucky.flagged w (List.mem_of_getElem? held) (.inr (.inr next)))
    refine ⟨?_,fun helps => by simp [helper,found] at helps⟩
    intro j helps
    obtain rfl : finder m x = j := by simpa [helper,found] using helps
    exact worker held active

def Solvable (c : Crates) (template : BlockTemplate) : Prop := ∃ nonce, template.hits c nonce = true

open Classical in
-- A nonce that meets the target of the template, if there is one.
noncomputable def nonceOf (c : Crates) (template : BlockTemplate) : UInt64 :=
  if solvable : Solvable c template then solvable.choose else 0

theorem nonceOf_hits (solvable : Solvable c template) : template.hits c (nonceOf c template) = true := by
  rw [nonceOf,dif_pos solvable]
  exact solvable.choose_spec

theorem start_lucky (template : BlockTemplate) (session : UInt64) (positive : 0 < n) (hits : template.hits c m = true) :
    Lucky c m (.mineTemplateParallel template n session) := by
  have crew : (Search.mineTemplateParallel template n session).workers.length = n := by
    simp [Search.mineTemplateParallel]
  have word := m.toNat_lt
  have below := Nat.mod_le m.toNat n
  have number : (UInt64.ofNat (m.toNat % n)).toNat = m.toNat % n :=
    UInt64.toNat_ofNat_of_lt' (by rw [UInt64.size]; omega)
  refine ⟨start_steady template session positive,hits,⟨.ofNat (m.toNat % n),.loadRunning⟩,?_,?_,?_⟩
  · rw [finder,crew]
    simp [Search.mineTemplateParallel,Nat.mod_lt _ positive]
  · rw [number]
    exact below
  · rw [number,finder,crew,Nat.mod_mod]

theorem start_far (template : BlockTemplate) (session : UInt64) :
    far m (.mineTemplateParallel template n session) ≤ 7 * n + 8 + (8 * 2^64 + 7) := by
  have word := m.toNat_lt
  have crew : (Search.mineTemplateParallel template n session).workers.length = n := by
    simp [Search.mineTemplateParallel]
  have bound : ∀ w : Worker, ahead m w ≤ 8 * 2^64 + 7 := by
    intro w
    unfold ahead
    split <;> omega
  rw [far,if_neg (by simp [Search.mineTemplateParallel]),crew]
  apply Nat.add_le_add_left
  cases (Search.mineTemplateParallel template n session).workers[finder m (.mineTemplateParallel template n session)]? with
  | none => exact Nat.zero_le _
  | some w => exact bound w

variable {before after k : Controller} {n : Nat} {empty : Bool}

-- The turns of a session before it submits a block.
noncomputable def away (c : Crates) (k : Controller) : Nat :=
  match k.next with
  | .loadRunning => 7 * k.workerCount + 8 * 2^64 + 19
  | .loadSession => 7 * k.workerCount + 8 * 2^64 + 18
  | .makeTemplate => 7 * k.workerCount + 8 * 2^64 + 17
  | .search search => far (nonceOf c search.template) search + 1
  | .submitBlock _ | .stopped => 0

noncomputable def assistant (c : Crates) (k : Controller) : Option Nat :=
  match k.next with
  | .search search => helper (nonceOf c search.template) search
  | _ => none

-- A session on its way to a block.
structure Going (c : Crates) (n : Nat) (empty : Bool) (k : Controller) : Prop extends Live c k where
  workers : k.workerCount = n
  blocks : k.mineEmptyBlocks = empty
  lucky : ∀ search, k.next = .search search →
    Lucky c (nonceOf c search.template) search ∧ search.workers.length = n

-- What `make_template` answers to a session that finds blocks.
def Minable (c : Crates) (empty : Bool) (made : Except String BlockTemplate) : Prop :=
  ∃ template, made = .ok template ∧ Solvable c template ∧ (empty = true ∨ 1 < template.block.transactions.length)

theorem control_going (going : Going c n empty before) (solvable : ∀ template, made = .ok template → Solvable c template)
    (went : before.control true before.currentSession made = some after) : Going c n empty after := by
  have live := control_live going.toLive went
  obtain ⟨next,rfl⟩ := control_next went
  refine ⟨live,going.workers,going.blocks,?_⟩
  rintro search rfl
  unfold Controller.control at went
  dsimp only at went
  split at went <;> rename_i here
  · cases went
  · rw [if_pos rfl] at went
    cases went
  · split at went
    · cases went
    · split at went <;> cases went
      refine ⟨start_lucky _ _ going.crew (nonceOf_hits (solvable _ rfl)),?_⟩
      rw [← going.workers]
      simp [Search.mineTemplateParallel]
  · rename_i x
    obtain ⟨lucky,crew⟩ := going.lucky x here
    obtain ⟨owns,_⟩ := going.steady x here
    split at went
    · cases went
    · cases went
    · cases went
    · obtain ⟨later,ran,same⟩ := Option.bind_eq_some_iff.mp went
      cases same
      obtain ⟨_,template,workers⟩ := wait_parts ran
      rw [template,workers]
      exact ⟨wait_lucky lucky (owns ▸ ran),crew⟩
  · cases went
  · cases went

theorem work_going (going : Going c n empty before) (went : before.work c true before.currentSession j = some after) :
    Going c n empty after := by
  have live := work_live going.toLive went
  obtain ⟨next,rfl⟩ := work_next went
  refine ⟨live,going.workers,going.blocks,?_⟩
  rintro search rfl
  unfold Controller.work at went
  split at went <;> rename_i here
  · rename_i x
    obtain ⟨lucky,crew⟩ := going.lucky x here
    obtain ⟨owns,_⟩ := going.steady x here
    split at went
    · cases went
    · rename_i held
      obtain ⟨later,ran,same⟩ := Option.map_eq_some_iff.mp went
      cases same
      obtain ⟨_,template,_⟩ := work_parts ran
      rw [template]
      exact ⟨work_lucky lucky held (owns ▸ ran),(work_crew ran).trans crew⟩
  · cases went

-- A turn of the session's own thread.
theorem control_near (going : Going c n empty before) (minable : Minable c empty made)
    (unsubmitted : ∀ block, before.next ≠ .submitBlock block)
    (went : before.control true before.currentSession made = some after) :
    (∃ block, after.next = .submitBlock block) ∨ away c after < away c before ∨
      (assistant c before ≠ none ∧ away c after = away c before ∧ assistant c after = assistant c before) := by
  unfold Controller.control at went
  dsimp only at went
  split at went <;> rename_i here
  · cases went
    refine .inr (.inl ?_)
    simp only [away,here,if_true]
    omega
  · rw [if_pos rfl] at went
    cases went
    refine .inr (.inl ?_)
    simp only [away,here]
    omega
  · obtain ⟨template,rfl,_,more⟩ := minable
    dsimp only at went
    have crowd : (!before.mineEmptyBlocks && decide (template.block.transactions.length ≤ 1)) = false := by
      rw [going.blocks]
      rcases more with rfl | more
      · rfl
      · simp [more]
    rw [crowd] at went
    cases went
    refine .inr (.inl ?_)
    have fresh := start_far (m := nonceOf c template) (n := before.workerCount) template before.currentSession
    have same : (Search.mineTemplateParallel template before.workerCount before.currentSession).template = template := rfl
    simp only [away,here,same]
    omega
  · rename_i search
    obtain ⟨lucky,_⟩ := going.lucky search here
    obtain ⟨owns,_⟩ := going.steady search here
    split at went <;> rename_i waits
    · cases went
      exact .inl ⟨_,rfl⟩
    · exact absurd (by rw [waits]; rfl) lucky.unstopped
    · rcases lucky.answered _ (by rw [waits]; rfl) with stopped | ⟨_,same,_⟩
      · cases stopped
      · cases same
    · obtain ⟨later,ran,same⟩ := Option.bind_eq_some_iff.mp went
      cases same
      have template := (wait_parts ran).2.1
      refine .inr ?_
      simp only [away,assistant,here,template]
      rcases wait_far lucky (owns ▸ ran) with less | ⟨other,same,helps⟩
      · exact .inl (by omega)
      · exact .inr ⟨other,by rw [same],helps⟩
  · exact absurd here (unsubmitted _)
  · cases went

theorem work_near (going : Going c n empty before) (went : before.work c true before.currentSession j = some after) :
    away c after < away c before ∨
      (assistant c before ≠ some j ∧ away c after = away c before ∧ assistant c after = assistant c before) := by
  unfold Controller.work at went
  split at went <;> rename_i here
  · rename_i x
    obtain ⟨lucky,_⟩ := going.lucky x here
    obtain ⟨owns,_⟩ := going.steady x here
    split at went
    · cases went
    · rename_i held
      obtain ⟨later,ran,same⟩ := Option.map_eq_some_iff.mp went
      cases same
      have template := (work_parts ran).2.1
      simp only [away,assistant,here,template]
      rcases work_far lucky held (owns ▸ ran) with less | ⟨other,same,helps⟩
      · exact .inl (by omega)
      · exact .inr ⟨other,by rw [same],helps⟩
  · cases went

-- The turn of the one who brings the session on is not lost.
theorem assistant_moves (going : Going c n empty k) (unsubmitted : ∀ block, k.next ≠ .submitBlock block) :
    (∀ j, assistant c k = some j → j < n ∧ ∃ after, k.work c true k.currentSession j = some after) ∧
      (assistant c k = none → ∀ made, ∃ after, k.control true k.currentSession made = some after) := by
  cases here : k.next with
  | loadRunning | loadSession =>
    refine ⟨fun j helps => by simp [assistant,here] at helps,fun _ made => ?_⟩
    simp only [Controller.control,here]
    exact ⟨_,rfl⟩
  | makeTemplate =>
    refine ⟨fun j helps => by simp [assistant,here] at helps,fun _ made => ?_⟩
    simp only [Controller.control,here]
    split
    · exact ⟨_,rfl⟩
    · split <;> exact ⟨_,rfl⟩
  | search search =>
    obtain ⟨lucky,crew⟩ := going.lucky search here
    obtain ⟨owns,_⟩ := going.steady search here
    by_cases closed : ∃ result, search.waiting = .returned result
    · obtain ⟨result,waits⟩ := closed
      have found := lucky.raised (by rw [waits]; rfl)
      refine ⟨fun j helps => by simp [assistant,here,helper,found,waits] at helps,fun _ made => ?_⟩
      simp only [Controller.control,here,waits]
      rcases result with (stopped | err) | block
      · exact ⟨_,rfl⟩
      · exact ⟨_,rfl⟩
      · exact ⟨_,rfl⟩
    · have under : ∀ result, search.waiting ≠ .returned result := fun result waits => closed ⟨result,waits⟩
      obtain ⟨works,awaits⟩ := helper_moves lucky under
      refine ⟨?_,?_⟩
      · intro j helps
        obtain ⟨w,y,held,ran⟩ := works j (by simpa [assistant,here] using helps)
        refine ⟨crew ▸ (List.getElem?_eq_some_iff.mp held).1,?_⟩
        rw [owns] at ran
        simp only [Controller.work,here,held,ran]
        exact ⟨_,rfl⟩
      · intro helps made
        obtain ⟨y,ran⟩ := awaits (by simpa [assistant,here] using helps)
        rw [owns] at ran
        simp only [Controller.control,here]
        split <;> rename_i waits
        · exact absurd waits (under _)
        · exact absurd waits (under _)
        · exact absurd waits (under _)
        · rw [ran]
          exact ⟨_,rfl⟩
  | submitBlock block => exact absurd here (unsubmitted block)
  | stopped => exact absurd here going.goes

-- The threads of the sessions: `none` stands for the one that waits.
def thread : MinerCall → Option (Nat × Option Nat)
  | .controller i _ _ => some (i,none)
  | .worker i j => some (i,some j)
  | .start _ | .startSession _ | .stop | .stopSession => none

def crewOf (i n : Nat) (t : Option (Nat × Option Nat)) : Prop := ∃ role, t = some (i,role) ∧ ∀ j, role = some j → j < n

-- The calls of a time in which nobody stops the miner and the session is given
-- templates that it can mine.
def Undisturbed (c : Crates) (i : Nat) (empty : Bool) (call : MinerCall) : Prop :=
  call ≠ .stop ∧ ∀ made accepted, call = .controller i made accepted → Minable c empty made

abbrev step (c : Crates) (x : Miner) (call : MinerCall) : Option Miner := (x.turn c call).map Prod.fst

-- A miner that runs with the session `i` as the current one.
structure Engaged (c : Crates) (i n : Nat) (empty : Bool) (x : Miner) : Prop where
  running : x.running = true
  starting : x.starting = []
  stopping : x.stopping = 0
  session : ∃ k, x.controllers[i]? = some k ∧ k.currentSession = x.sessionId ∧ Going c n empty k

-- What a call is to the session `i`.
inductive Acted (c : Crates) (i : Nat) (k : Controller) : MinerCall → Controller → Prop where
  | idle {call : MinerCall} : (∀ made accepted, call = .controller i made accepted → k.control true k.currentSession made = none) →
      (∀ j, call = .worker i j → k.work c true k.currentSession j = none) → Acted c i k call k
  | control {made : _} {accepted : _} {after : Controller} : k.control true k.currentSession made = some after →
      Acted c i k (.controller i made accepted) after
  | work {j : Nat} {after : Controller} : k.work c true k.currentSession j = some after → Acted c i k (.worker i j) after

theorem control_acted {x : Miner} (held : x.controllers[i]? = some k) (there : x.controllers[j]? = some before)
    (current : k.currentSession = x.sessionId) (went : before.control true x.sessionId made = some after) :
    ∃ later, Acted c i k (.controller j made accepted) later ∧ (x.controllers.set j after)[i]? = some later := by
  by_cases same : j = i
  · subst same
    obtain rfl := Option.some.inj (there.symm.trans held)
    exact ⟨after,.control (current ▸ went),List.getElem?_set_self (List.getElem?_eq_some_iff.mp held).1⟩
  · refine ⟨k,.idle ?_ nofun,by rwa [List.getElem?_set_ne same]⟩
    intro _ _ equal
    cases equal
    exact absurd rfl same

theorem work_acted {x : Miner} (held : x.controllers[i]? = some k) (there : x.controllers[j]? = some before)
    (current : k.currentSession = x.sessionId) (went : before.work c true x.sessionId l = some after) :
    ∃ later, Acted c i k (.worker j l) later ∧ (x.controllers.set j after)[i]? = some later := by
  by_cases same : j = i
  · subst same
    obtain rfl := Option.some.inj (there.symm.trans held)
    exact ⟨after,.work (current ▸ went),List.getElem?_set_self (List.getElem?_eq_some_iff.mp held).1⟩
  · refine ⟨k,.idle nofun ?_,by rwa [List.getElem?_set_ne same]⟩
    intro _ equal
    cases equal
    exact absurd rfl same

theorem advance_acted {x : Miner} (running : x.running = true) (starting : x.starting = []) (stopping : x.stopping = 0)
    (held : x.controllers[i]? = some k) (current : k.currentSession = x.sessionId) (unstopped : call ≠ .stop) :
    ∃ after, Acted c i k call after ∧ (Schedules.advance (step c) x call).controllers[i]? = some after ∧
      (Schedules.advance (step c) x call).sessionId = x.sessionId ∧
      (Schedules.advance (step c) x call).running = true ∧ (Schedules.advance (step c) x call).starting = [] ∧
      (Schedules.advance (step c) x call).stopping = 0 := by
  unfold Schedules.advance
  cases ran : x.turn c call with
  | none =>
    rw [step,ran]
    refine ⟨k,.idle ?_ ?_,held,rfl,running,starting,stopping⟩
    · rintro made accepted rfl
      simp only [Miner.turn,held,Option.bind_some,Option.map_eq_none_iff] at ran
      rwa [running,← current] at ran
    · rintro j rfl
      simp only [Miner.turn,held,Option.bind_some,Option.map_eq_none_iff] at ran
      rwa [running,← current] at ran
  | some pair =>
    obtain ⟨next,answer⟩ := pair
    rw [step,ran]
    cases turn_moved ran with
    | refused =>
      refine ⟨k,.idle ?_ ?_,held,rfl,running,starting,stopping⟩
      · intro _ _ same
        cases same
      · intro _ same
        cases same
    | started idle =>
      rw [running] at idle
      cases idle
    | session member =>
      rw [starting] at member
      cases member
    | stopped => exact absurd rfl unstopped
    | ended some => exact absurd stopping some
    | controlled there went | submitted there went =>
      rw [running] at went
      exact (control_acted held there current went).imp fun after both => ⟨both.1,both.2,rfl,running,starting,stopping⟩
    | worked there went =>
      rw [running] at went
      exact (work_acted held there current went).imp fun after both => ⟨both.1,both.2,rfl,running,starting,stopping⟩

theorem acted_going (going : Going c n empty k) (acted : Acted c i k call after)
    (solvable : ∀ template accepted, call = .controller i (.ok template) accepted → Solvable c template) :
    Going c n empty after := by
  cases acted with
  | idle => exact going
  | control went =>
    refine control_going going ?_ went
    rintro template rfl
    exact solvable template _ rfl
  | work went => exact work_going going went

theorem Undisturbed.solvable (calm : Undisturbed c i empty call) (template : BlockTemplate) (accepted : Answer)
    (same : call = .controller i (.ok template) accepted) : Solvable c template := by
  obtain ⟨_,given,solvable,_⟩ := calm.2 _ _ same
  cases given
  exact solvable

theorem advance_engaged {x : Miner} (engaged : Engaged c i n empty x) (calm : Undisturbed c i empty call) :
    Engaged c i n empty (Schedules.advance (step c) x call) := by
  obtain ⟨k,held,current,going⟩ := engaged.session
  obtain ⟨after,acted,found,number,running,starting,stopping⟩ :=
    advance_acted engaged.running engaged.starting engaged.stopping held current calm.1
  have later := acted_going going acted calm.solvable
  have kept : after.currentSession = k.currentSession := by
    cases acted with
    | idle => rfl
    | control went => exact control_session went
    | work went => exact work_session went
  exact ⟨running,starting,stopping,after,found,kept.trans (current.trans number.symm),later⟩

noncomputable def distance (c : Crates) (i : Nat) (x : Miner) : Nat := (x.controllers[i]?.map (away c)).getD 0

noncomputable def assists (c : Crates) (i : Nat) (x : Miner) : Option (Nat × Option Nat) :=
  some (i,x.controllers[i]?.bind (assistant c))

theorem distance_held {x : Miner} (held : x.controllers[i]? = some k) : distance c i x = away c k := by
  rw [distance,held,Option.map_some,Option.getD_some]

theorem assists_held {x : Miner} (held : x.controllers[i]? = some k) : assists c i x = some (i,assistant c k) := by
  rw [assists,held,Option.bind_some]

def Submitting (i : Nat) (block : Block) (x : Miner) : Prop :=
  ∃ k, x.controllers[i]? = some k ∧ k.next = .submitBlock block

theorem advance_nearer {x : Miner} (engaged : Engaged c i n empty x) (calm : Undisturbed c i empty call)
    (under : ¬∃ block, Submitting i block x) :
    (∃ block, Submitting i block (Schedules.advance (step c) x call)) ∨
      distance c i (Schedules.advance (step c) x call) < distance c i x ∨ (thread call ≠ assists c i x ∧
        distance c i (Schedules.advance (step c) x call) = distance c i x ∧
        assists c i (Schedules.advance (step c) x call) = assists c i x) := by
  obtain ⟨k,held,current,going⟩ := engaged.session
  obtain ⟨after,acted,found,_⟩ :=
    advance_acted engaged.running engaged.starting engaged.stopping held current calm.1
  have unsubmitted : ∀ block, k.next ≠ .submitBlock block := fun block next => under ⟨block,k,held,next⟩
  obtain ⟨works,controls⟩ := assistant_moves going unsubmitted
  rw [distance_held held,distance_held found,assists_held held,assists_held found]
  cases acted with
  | idle stays rests =>
    -- The turn of the assistant would not have been lost.
    refine .inr (.inr ⟨?_,rfl,rfl⟩)
    intro same
    cases call with
    | controller l made accepted =>
      simp only [thread,Option.some.injEq,Prod.mk.injEq] at same
      obtain ⟨rfl,none⟩ := same
      obtain ⟨later,went⟩ := controls none.symm made
      rw [stays made accepted rfl] at went
      cases went
    | worker l j =>
      simp only [thread,Option.some.injEq,Prod.mk.injEq] at same
      obtain ⟨rfl,one⟩ := same
      obtain ⟨_,later,went⟩ := works j one.symm
      rw [rests j rfl] at went
      cases went
    | start | startSession | stop | stopSession => cases same
  | control went =>
    rcases control_near going (calm.2 _ _ rfl) unsubmitted went with ⟨block,next⟩ | less | ⟨other,same,helps⟩
    · exact .inl ⟨block,after,found,next⟩
    · exact .inr (.inl less)
    · refine .inr (.inr ⟨?_,same,by rw [helps]⟩)
      simpa [thread] using other.symm
  | work went =>
    rcases work_near going went with less | ⟨other,same,helps⟩
    · exact .inr (.inl less)
    · refine .inr (.inr ⟨?_,same,by rw [helps]⟩)
      simpa [thread] using other.symm

theorem assists_crew {x : Miner} (engaged : Engaged c i n empty x) (under : ¬∃ block, Submitting i block x) :
    crewOf i n (assists c i x) := by
  obtain ⟨k,held,_,going⟩ := engaged.session
  refine ⟨_,rfl,fun j helps => ?_⟩
  rw [held] at helps
  exact ((assistant_moves going fun block next => under ⟨block,k,held,next⟩).1 j helps).1

variable {order : Nat → MinerCall} {origin : Miner} {t : Nat}

-- With fair turns a session that nobody stops submits one block after the other.
theorem engaged_submits (fair : Schedules.Fair thread (crewOf i n) order) (calm : ∀ t, Undisturbed c i empty (order t))
    (engaged : Engaged c i n empty (Schedules.states (step c) origin order t)) :
    ∃ later made accepted block next, t ≤ later ∧ order later = .controller i made accepted ∧
      (Schedules.states (step c) origin order later).turn c (order later) = some (next,.submitted block accepted) := by
  obtain ⟨there,after,engaged,block,submitting⟩ := Schedules.fair_reaches
    (fun x => Engaged c i n empty x ∧ ∃ block, Submitting i block x) (distance c i) (assists c i) fair calm
    (fun _ engaged under => assists_crew engaged fun some => under ⟨engaged,some⟩)
    (fun _ _ engaged calm _ => .inr (advance_engaged engaged calm))
    (fun _ _ engaged calm under => (advance_nearer engaged calm fun some => under ⟨engaged,some⟩).imp_left
      fun some => ⟨advance_engaged engaged calm,some⟩) engaged
  -- The block waits for the turn of the thread that has it.
  have keeps : ∀ x call, Engaged c i n empty x ∧ Submitting i block x → Undisturbed c i empty call →
      thread call ≠ some (i,none) → Engaged c i n empty (Schedules.advance (step c) x call) ∧
        Submitting i block (Schedules.advance (step c) x call) := by
    rintro x call ⟨engaged,k,held,next⟩ calm other
    refine ⟨advance_engaged engaged calm,?_⟩
    obtain ⟨k',held',current,going⟩ := engaged.session
    obtain rfl := Option.some.inj (held.symm.trans held')
    obtain ⟨after,acted,found,_⟩ :=
      advance_acted engaged.running engaged.starting engaged.stopping held current calm.1
    cases acted with
    | idle => exact ⟨k,found,next⟩
    | control => exact absurd rfl other
    | work went => simp [Controller.work,next] at went
  obtain ⟨later,since,turn,engaged,k,held,next⟩ :=
    Schedules.fair_turn fair calm ⟨none,rfl,nofun⟩ keeps ⟨engaged,submitting⟩
  cases call : order later with
  | controller l made accepted =>
    rw [call] at turn
    cases turn
    have ran : ∃ last, (Schedules.states (step c) origin order later).turn c (order later) =
        some (last,.submitted block accepted) := by
      simp only [call,Miner.turn,held,Controller.control,next,Controller.submits,Option.bind_some,Option.map_some]
      exact ⟨_,rfl⟩
    obtain ⟨last,ran⟩ := ran
    exact ⟨later,made,accepted,block,last,after.trans since,call,ran⟩
  | worker l j =>
    rw [call] at turn
    cases turn
  | start | startSession | stop | stopSession =>
    rw [call] at turn
    cases turn

-- Besides, the templates of a run have nonces that meet their targets.
def Fed (c : Crates) (x : Miner) (call : MinerCall) : Prop :=
  Apart x call ∧ ∀ i template accepted, call = .controller i (.ok template) accepted → Solvable c template

def Busy (c : Crates) (k : Controller) : Prop := Going c k.workerCount k.mineEmptyBlocks k

theorem fresh_busy (session : UInt64) (settings : MiningSettings) :
    Busy c ⟨session,max settings.workerCount 1,settings.mineEmptyBlocks,.loadRunning⟩ :=
  ⟨fresh_live session settings,rfl,rfl,nofun⟩

theorem control_busy (busy : Busy c before) (solvable : ∀ template, made = .ok template → Solvable c template)
    (went : before.control true before.currentSession made = some after) : Busy c after := by
  have later := control_going busy solvable went
  obtain ⟨_,rfl⟩ := control_next went
  exact later

theorem work_busy (busy : Busy c before) (went : before.work c true before.currentSession j = some after) : Busy c after := by
  have later := work_going busy went
  obtain ⟨_,rfl⟩ := work_next went
  exact later

theorem fed_mining {x next : Miner} (mining : Mining (Busy c) x) (fed : Fed c x call) (ran : x.turn c call = some (next,answer)) :
    Mining (Busy c) next := by
  refine moved_mining fresh_busy ?_ work_busy mining fed.1 (turn_moved ran)
  rintro i made accepted before after rfl busy went
  refine control_busy busy ?_ went
  rintro template rfl
  exact fed.2 i template accepted rfl

-- A miner that says it is running is mining: as long as nobody stops it, and with fair
-- turns for its threads, its newest session submits a block after any moment.
theorem running_mines (path : Runs.Run (Miner.turn c) (Fed c) .new calls origin) (running : origin.running = true)
    (settled : origin.starting = []) :
    ∃ i k, i + 1 = origin.controllers.length ∧ origin.controllers[i]? = some k ∧
      ∀ order, (∀ t, Undisturbed c i k.mineEmptyBlocks (order t)) → Schedules.Fair thread (crewOf i k.workerCount) order →
        ∀ t, ∃ later made accepted block next, t ≤ later ∧ order later = .controller i made accepted ∧
          (Schedules.states (step c) origin order later).turn c (order later) = some (next,.submitted block accepted) := by
  obtain ⟨stopping,newest⟩ := Runs.run_invariant new_mining fed_mining path running
  obtain ⟨i,k,newest⟩ := newest settled
  refine ⟨i,k,newest.last,newest.held,fun order calm fair t => ?_⟩
  have engaged : Engaged c i k.workerCount k.mineEmptyBlocks origin :=
    ⟨running,settled,stopping,k,newest.held,newest.current,newest.live⟩
  exact engaged_submits fair calm
    (Schedules.states_invariant engaged calm (fun _ _ engaged calm => advance_engaged engaged calm) t)

theorem openTemplate_solvable : Solvable reference openTemplate := ⟨0,by decide +kernel⟩

-- The session's thread and its worker take turns.
def alternate (t : Nat) : MinerCall := if t % 2 = 0 then openTurn else .worker 0 0

theorem alternate_fair : Schedules.Fair thread (crewOf 0 1) alternate := by
  rintro _ ⟨role,rfl,small⟩ n
  cases role with
  | none => exact ⟨2 * n,by omega,by simp [alternate,thread,openTurn]⟩
  | some j =>
    obtain rfl : j = 0 := by
      have below := small j rfl
      omega
    exact ⟨2 * n + 1,by omega,by simp [alternate,thread]⟩

theorem alternate_calm (t : Nat) : Undisturbed reference 0 true (alternate t) := by
  unfold alternate
  split
  · refine ⟨nofun,?_⟩
    rintro made accepted same
    cases same
    exact ⟨openTemplate,rfl,openTemplate_solvable,.inl rfl⟩
  · exact ⟨nofun,nofun⟩

theorem running_mines_openTemplate : ∃ (origin : Miner) (later : Nat) (block : Block) (next : Miner),
    (Schedules.states (step reference) origin alternate later).turn reference (alternate later) =
      some (next,.submitted block (.ok ())) := by
  have first : Fed reference .new (.start ⟨1,true⟩) := ⟨fun _ _ _ => rfl,nofun⟩
  have second : ∀ x, Fed reference x (.startSession ⟨1,true⟩) := fun _ => ⟨nofun,nofun⟩
  have started : Runs.Run (Miner.turn reference) (Fed reference) .new [(.start ⟨1,true⟩,.quiet)]
      { Miner.new with running := true, starting := [⟨1,true⟩] } := Runs.Run.nil.step first rfl
  have path := started.step (second _) rfl
  obtain ⟨i,k,last,held,mines⟩ := running_mines path rfl rfl
  obtain rfl : i = 0 := by simpa [Miner.new] using last
  obtain rfl := Option.some.inj held
  obtain ⟨later,made,accepted,block,next,_,call,submitted⟩ := mines alternate alternate_calm alternate_fair 0
  obtain rfl : accepted = .ok () := by
    unfold alternate at call
    split at call <;> cases call
    rfl
  exact ⟨_,later,block,next,submitted⟩

end BlindEye.MiningProgress
