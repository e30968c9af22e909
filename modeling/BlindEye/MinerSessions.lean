import BlindEye.Library.Runs
import BlindEye.MiningSearch
import BlindEye.Reference

namespace BlindEye.MinerSessions
open MiningSearch

variable {c : Crates} {x s next : Miner}

-- What one call does to the miner.
inductive Moved (c : Crates) (x : Miner) : MinerCall → Miner → MinerAnswer → Prop where
  | refused : x.running = true → Moved c x (.start settings) x (.answered (.error "Mining is already running"))
  | started : x.running = false →
      Moved c x (.start settings) { x with running := true, starting := settings :: x.starting } .quiet
  | session : settings ∈ x.starting →
      Moved c x (.startSession settings) ⟨x.running,x.sessionId + 1,0,none,x.starting.erase settings,x.stopping,
        x.controllers ++ [⟨x.sessionId + 1,max settings.workerCount 1,settings.mineEmptyBlocks,.loadRunning⟩]⟩
        (.answered (.ok ()))
  | stopped : Moved c x .stop { x with running := false, stopping := x.stopping + 1 } .quiet
  | ended : x.stopping ≠ 0 → Moved c x .stopSession
      { x with sessionId := x.sessionId + 1, stopping := x.stopping - 1 } (.answered (.ok ()))
  | controlled : x.controllers[i]? = some before → before.control x.running x.sessionId made = some after →
      before.submits = none →
      Moved c x (.controller i made accepted) { x with controllers := x.controllers.set i after } .quiet
  | submitted : x.controllers[i]? = some before → before.control x.running x.sessionId made = some after →
      before.submits = some block → Moved c x (.controller i made accepted)
        { x with controllers := x.controllers.set i after, lastBlockHash } (.submitted block accepted)
  | worked : x.controllers[i]? = some before → before.work c x.running x.sessionId j = some after →
      Moved c x (.worker i j) { x with controllers := x.controllers.set i after, totalHashes } .quiet

variable {before after k : Controller} {running : Bool} {sessionId : UInt64} {i j : Nat}

theorem turn_moved (ran : x.turn c call = some (next,answer)) : Moved c x call next answer := by
  cases call with
  | start settings =>
    simp only [Miner.turn] at ran
    split at ran
    · rename_i running
      cases ran
      exact .refused running
    · rename_i idle
      cases ran
      exact .started (Bool.eq_false_iff.mpr idle)
  | startSession settings =>
    simp only [Miner.turn] at ran
    split at ran
    · cases ran
    · rename_i waiting
      cases ran
      exact .session (not_not.mp waiting)
  | stop =>
    cases ran
    exact .stopped
  | stopSession =>
    simp only [Miner.turn] at ran
    split at ran
    · cases ran
    · rename_i some
      cases ran
      exact .ended some
  | controller i made accepted =>
    obtain ⟨before,held,ran⟩ := Option.bind_eq_some_iff.mp ran
    obtain ⟨after,went,equal⟩ := Option.map_eq_some_iff.mp ran
    dsimp only at equal
    split at equal
    · rename_i none
      cases equal
      exact .controlled held went none
    · rename_i submits
      cases equal
      exact .submitted held went submits
  | worker i j =>
    obtain ⟨before,held,ran⟩ := Option.bind_eq_some_iff.mp ran
    obtain ⟨after,went,equal⟩ := Option.map_eq_some_iff.mp ran
    cases equal
    exact .worked held went

-- A turn changes nothing of a session but its next step.
theorem control_next (went : before.control running sessionId made = some after) : ∃ next, after = { before with next } := by
  unfold Controller.control at went
  dsimp only at went
  split at went
  · exact ⟨_,(Option.some.inj went).symm⟩
  · exact ⟨_,(Option.some.inj went).symm⟩
  · split at went
    · exact ⟨_,(Option.some.inj went).symm⟩
    · split at went <;> exact ⟨_,(Option.some.inj went).symm⟩
  · split at went
    · exact ⟨_,(Option.some.inj went).symm⟩
    · exact ⟨_,(Option.some.inj went).symm⟩
    · exact ⟨_,(Option.some.inj went).symm⟩
    · obtain ⟨_,_,same⟩ := Option.bind_eq_some_iff.mp went
      exact ⟨_,(Option.some.inj same).symm⟩
  · exact ⟨_,(Option.some.inj went).symm⟩
  · cases went

theorem work_next (went : before.work c running sessionId j = some after) : ∃ next, after = { before with next } := by
  unfold Controller.work at went
  split at went
  · split at went
    · cases went
    · obtain ⟨_,_,same⟩ := Option.map_eq_some_iff.mp went
      exact ⟨_,same.symm⟩
  · cases went

theorem control_session (went : before.control running sessionId made = some after) :
    after.currentSession = before.currentSession := by
  obtain ⟨_,rfl⟩ := control_next went
  rfl

theorem work_session (went : before.work c running sessionId j = some after) :
    after.currentSession = before.currentSession := by
  obtain ⟨_,rfl⟩ := work_next went
  rfl

def sessions (x : Miner) : List UInt64 := x.controllers.map Controller.currentSession

theorem sessions_set (held : x.controllers[i]? = some before) (same : after.currentSession = before.currentSession) :
    (x.controllers.set i after).map Controller.currentSession = sessions x := by
  obtain ⟨inside,rfl⟩ := List.getElem?_eq_some_iff.mp held
  have inside' : i < (x.controllers.map Controller.currentSession).length := by rwa [List.length_map]
  have kept := List.set_getElem_self inside'
  rw [List.getElem_map] at kept
  rw [List.map_set,same,kept,sessions]

-- A number is given out at most once and never again.
theorem moved_sessions (moved : Moved c x call next answer) :
    (sessions next = sessions x ∧ (next.sessionId = x.sessionId ∨ next.sessionId = x.sessionId + 1)) ∨
      (sessions next = sessions x ++ [x.sessionId + 1] ∧ next.sessionId = x.sessionId + 1) := by
  cases moved with
  | refused | started | stopped => exact .inl ⟨rfl,.inl rfl⟩
  | session => exact .inr ⟨by simp [sessions],rfl⟩
  | ended => exact .inl ⟨rfl,.inr rfl⟩
  | controlled held went | submitted held went => exact .inl ⟨sessions_set held (control_session went),.inl rfl⟩
  | worked held went => exact .inl ⟨sessions_set held (work_session went),.inl rfl⟩

structure Numbered (x : Miner) : Prop where
  order : (sessions x).Pairwise (·.toNat < ·.toNat)
  bound : ∀ n ∈ sessions x, n.toNat ≤ x.sessionId.toNat

theorem succ_toNat {n : UInt64} (room : n.toNat + 1 < 2^64) : (n + 1).toNat = n.toNat + 1 := by
  rw [UInt64.toNat_add]
  exact Nat.mod_eq_of_lt room

theorem moved_numbered (numbered : Numbered x) (room : x.sessionId.toNat + 1 < 2^64) (moved : Moved c x call next answer) :
    Numbered next ∧ x.sessionId.toNat ≤ next.sessionId.toNat ∧ next.sessionId.toNat ≤ x.sessionId.toNat + 1 := by
  rcases moved_sessions moved with ⟨same,here | up⟩ | ⟨one,up⟩
  · exact ⟨⟨same ▸ numbered.order,by rw [same,here]; exact numbered.bound⟩,by rw [here],by rw [here]; omega⟩
  · have number := up ▸ succ_toNat room
    refine ⟨⟨same ▸ numbered.order,?_⟩,by omega,by omega⟩
    rw [same]
    intro n member
    have below := numbered.bound n member
    omega
  · have number := up ▸ succ_toNat room
    refine ⟨⟨?_,?_⟩,by omega,by omega⟩
    · rw [one,← up]
      refine List.pairwise_append.mpr ⟨numbered.order,List.pairwise_singleton _ _,?_⟩
      intro n member m last
      obtain rfl := List.mem_singleton.mp last
      have below := numbered.bound n member
      omega
    · rw [one,← up]
      intro n member
      rcases List.mem_append.mp member with old | last
      · have below := numbered.bound n old
        omega
      · rw [List.mem_singleton.mp last]

abbrev Ran (c : Crates) := Runs.Run (Miner.turn c) (fun _ _ => True) .new

theorem run_numbered (path : Ran c calls x) (few : calls.length < 2^64) :
    Numbered x ∧ x.sessionId.toNat ≤ calls.length := by
  induction path with
  | nil => exact ⟨⟨List.Pairwise.nil,nofun⟩,Nat.zero_le _⟩
  | step _ _ ran ih =>
    rw [List.length_append,List.length_singleton] at few
    obtain ⟨numbered,bound⟩ := ih (by omega)
    obtain ⟨later,_,step⟩ := moved_numbered numbered (by omega) (turn_moved ran)
    exact ⟨later,by rw [List.length_append,List.length_singleton]; omega⟩

-- What a session has in hand comes from a template it was given.
def Prepared (c : Crates) (given : BlockTemplate → Prop) (k : Controller) : Prop :=
  match k.next with
  | .search search => search.currentSession = k.currentSession ∧ Sound c search ∧ given search.template
  | .submitBlock block => ∃ template, given template ∧ Mined c template block
  | .loadRunning | .loadSession | .makeTemplate | .stopped => True

variable {given wider : BlockTemplate → Prop}

theorem Prepared.mono (prepared : Prepared c given k) (wide : ∀ template, given template → wider template) :
    Prepared c wider k := by
  unfold Prepared at prepared ⊢
  split
  · rename_i here
    rw [here] at prepared
    exact ⟨prepared.1,prepared.2.1,wide _ prepared.2.2⟩
  · rename_i here
    rw [here] at prepared
    exact prepared.imp fun template both => ⟨wide template both.1,both.2⟩
  all_goals trivial

theorem Prepared.searching (prepared : Prepared c given k) (here : k.next = .search search) :
    search.currentSession = k.currentSession ∧ Sound c search ∧ given search.template := by
  rw [Prepared,here] at prepared
  exact prepared

theorem Prepared.submitting (prepared : Prepared c given k) (here : k.next = .submitBlock block) :
    ∃ template, given template ∧ Mined c template block := by
  rw [Prepared,here] at prepared
  exact prepared

theorem wait_parts {search y : Search} (ran : search.wait running sessionId = some y) :
    y.currentSession = search.currentSession ∧ y.template = search.template ∧ y.workers = search.workers := by
  unfold Search.wait at ran
  split at ran
  · cases ran
    exact ⟨rfl,rfl,rfl⟩
  · cases ran
    exact ⟨rfl,rfl,rfl⟩
  · split at ran
    · cases ran
      exact ⟨rfl,rfl,rfl⟩
    · cases ran
      exact ⟨rfl,rfl,rfl⟩
    · split at ran <;> cases ran <;> exact ⟨rfl,rfl,rfl⟩
  · cases ran
    exact ⟨rfl,rfl,rfl⟩
  · split at ran
    · cases ran
      exact ⟨rfl,rfl,rfl⟩
    · split at ran <;> cases ran
      exact ⟨rfl,rfl,rfl⟩
  · cases ran

theorem work_parts {search y : Search} (ran : search.work c running sessionId i w = some y) :
    y.currentSession = search.currentSession ∧ y.template = search.template ∧ y.waiting = search.waiting := by
  unfold Search.work at ran
  split at ran
  case h_4 => split at ran <;> cases ran <;> exact ⟨rfl,rfl,rfl⟩
  case h_8 => cases ran
  all_goals
    cases ran
    exact ⟨rfl,rfl,rfl⟩

theorem control_prepared (prepared : Prepared c given before) (offered : ∀ template, made = .ok template → given template)
    (went : before.control running sessionId made = some after) : Prepared c given after := by
  unfold Controller.control at went
  dsimp only at went
  split at went
  · cases went
    split_ifs <;> trivial
  · cases went
    split_ifs <;> trivial
  · split at went
    · cases went
      trivial
    · split at went
      · cases went
        trivial
      · cases went
        exact ⟨rfl,start_sound _ _ _,offered _ rfl⟩
  · rename_i search here
    obtain ⟨owns,sound,known⟩ := prepared.searching here
    split at went
    · rename_i block result
      cases went
      rcases sound.answered _ (by rw [result]; rfl) with stopped | ⟨mined,same,nonce⟩
      · cases stopped
      · cases same
        exact ⟨_,known,nonce⟩
    · cases went
      trivial
    · cases went
      trivial
    · obtain ⟨later,ran,same⟩ := Option.bind_eq_some_iff.mp went
      cases same
      obtain ⟨session,template,_⟩ := wait_parts ran
      exact ⟨session.trans owns,wait_sound sound ran,template ▸ known⟩
  · cases went
    trivial
  · cases went

theorem work_prepared (prepared : Prepared c given before) (went : before.work c running sessionId j = some after) :
    Prepared c given after := by
  unfold Controller.work at went
  split at went
  · rename_i search here
    obtain ⟨owns,sound,known⟩ := prepared.searching here
    split at went
    · cases went
    · rename_i w held
      obtain ⟨later,ran,same⟩ := Option.map_eq_some_iff.mp went
      cases same
      obtain ⟨session,template,_⟩ := work_parts ran
      exact ⟨session.trans owns,work_sound sound held ran,template ▸ known⟩
  · cases went

-- The templates that a session was given in a run.
def Given (calls : List (MinerCall × MinerAnswer)) (i : Nat) (template : BlockTemplate) : Prop :=
  ∃ accepted answer, (.controller i (.ok template) accepted,answer) ∈ calls

-- One session moves, and the others stay as they are.
theorem moved_prepared {given : Nat → BlockTemplate → Prop} (moved : Moved c x call next answer)
    (prepared : ∀ i k, x.controllers[i]? = some k → Prepared c (given i) k)
    (offered : ∀ i template accepted, call = .controller i (.ok template) accepted → given i template) :
    ∀ i k, next.controllers[i]? = some k → Prepared c (given i) k := by
  have turned : ∀ {j before after}, x.controllers[j]? = some before → (Prepared c (given j) before → Prepared c (given j) after) →
      ∀ i k, (x.controllers.set j after)[i]? = some k → Prepared c (given i) k := by
    intro j before after held keeps i k found
    by_cases same : j = i
    · subst same
      rw [List.getElem?_set_self (List.getElem?_eq_some_iff.mp held).1] at found
      cases found
      exact keeps (prepared j before held)
    · rw [List.getElem?_set_ne same] at found
      exact prepared i k found
  cases moved with
  | refused | started | stopped | ended => exact prepared
  | session =>
    intro i k found
    by_cases old : i < x.controllers.length
    · exact prepared i k (by rwa [List.getElem?_append_left old] at found)
    · rw [List.getElem?_append_right (not_lt.mp old)] at found
      obtain rfl := List.mem_singleton.mp (List.mem_of_getElem? found)
      trivial
  | controlled held went | submitted held went =>
    refine turned held fun prepared => control_prepared prepared ?_ went
    rintro template rfl
    exact offered _ template _ rfl
  | worked held went => exact turned held fun prepared => work_prepared prepared went

theorem run_prepared (path : Ran c calls x) : ∀ i k, x.controllers[i]? = some k → Prepared c (Given calls i) k := by
  induction path with
  | nil => exact fun i k none => by simp [Miner.new] at none
  | @step earlier s call later answer _ _ ran ih =>
    refine moved_prepared (turn_moved ran) ?_ ?_
    · intro i k held
      refine (ih i k held).mono ?_
      exact fun template known => known.imp fun accepted known => known.imp fun answer => List.mem_append_left _
    · rintro i template accepted rfl
      exact ⟨_,_,List.mem_append_right _ (List.mem_singleton_self _)⟩

-- The blocks that a session whose time is over can still submit.
def pending (k : Controller) : Nat :=
  match k.next with
  | .search search =>
    match search.waiting with
    | .receive | .storeFound (.ok _) | .join (.ok _) _ | .returned (.ok _) => 1
    | _ => 0
  | .submitBlock _ => 1
  | _ => 0

theorem pending_le (k : Controller) : pending k ≤ 1 := by
  unfold pending
  repeat' split
  all_goals omega

def charge (k : Controller) : Nat := if k.submits.isSome then 1 else 0

theorem wait_pending {search y : Search} (stale : sessionId ≠ search.currentSession)
    (ran : search.wait running sessionId = some y) :
    pending { before with next := .search y } ≤ pending { before with next := .search search } := by
  unfold Search.wait at ran
  split at ran <;> rename_i here
  · cases ran
    cases running <;> simp [pending]
  · cases ran
    simp [pending,stale]
  · simp only [pending,here]
    split at ran
    · cases ran
      exact Nat.le_refl 1
    · cases ran
      exact Nat.zero_le 1
    · split at ran <;> cases ran <;> exact Nat.zero_le 1
  · rename_i result
    cases ran
    cases result <;> simp [pending,here]
  · rename_i result joined
    have kept : ∀ {waiting}, outcome waiting = some result →
        pending { before with next := .search { search with waiting } } ≤ pending { before with next := .search search } := by
      intro waiting given
      cases result <;> cases waiting <;> cases given <;> simp [pending,here]
    split at ran
    · cases ran
      exact kept rfl
    · split at ran <;> cases ran
      exact kept rfl
  · cases ran

theorem control_pending (prepared : Prepared c given before) (stale : sessionId ≠ before.currentSession)
    (went : before.control running sessionId made = some after) : charge before + pending after ≤ pending before := by
  unfold Controller.control at went
  dsimp only at went
  split at went <;> rename_i here
  · cases went
    cases running <;> simp [charge,Controller.submits,pending,here]
  · cases went
    simp [charge,Controller.submits,pending,here,stale]
  · have idle : ∀ {next : ControllerStep}, pending { before with next } = 0 →
        charge before + pending { before with next } ≤ pending before := by
      intro next zero
      rw [zero]
      simp [charge,Controller.submits,here]
    split at went
    · cases went
      exact idle rfl
    · split at went <;> cases went <;> exact idle rfl
  · rename_i search
    have quiet : charge before = 0 := by simp [charge,Controller.submits,here]
    have same : before = { before with next := .search search } := by rw [← here]
    rw [quiet,Nat.zero_add,same]
    split at went <;> rename_i waits
    · cases went
      simp [pending,waits]
    · cases went
      simp [pending]
    · cases went
      simp [pending]
    · obtain ⟨y,ran,equal⟩ := Option.bind_eq_some_iff.mp went
      cases equal
      exact wait_pending ((prepared.searching here).1 ▸ stale) ran
  · cases went
    simp [charge,Controller.submits,pending,here]
  · cases went

theorem work_pending (went : before.work c running sessionId j = some after) :
    before.submits = none ∧ pending after = pending before := by
  unfold Controller.work at went
  split at went <;> rename_i here
  · split at went
    · cases went
    · obtain ⟨y,ran,same⟩ := Option.map_eq_some_iff.mp went
      cases same
      exact ⟨by rw [Controller.submits,here],by simp only [pending,here,(work_parts ran).2.2]⟩
  · cases went

-- The blocks that a session submits in a run.
def submits (i : Nat) : MinerCall × MinerAnswer → Nat
  | (.controller j _ _,.submitted _ _) => if j = i then 1 else 0
  | _ => 0

theorem moved_stale (numbered : Numbered x) (room : x.sessionId.toNat + 1 < 2^64) (held : x.controllers[i]? = some k)
    (prepared : Prepared c given k) (stale : k.currentSession ≠ x.sessionId) (moved : Moved c x call next answer) :
    ∃ later, next.controllers[i]? = some later ∧ later.currentSession = k.currentSession ∧
      later.currentSession ≠ next.sessionId ∧ submits i (call,answer) + pending later ≤ pending k := by
  have number : k.currentSession ∈ sessions x := List.mem_map.mpr ⟨k,List.mem_of_getElem? held,rfl⟩
  have below := numbered.bound _ number
  have under : k.currentSession.toNat < x.sessionId.toNat :=
    lt_of_le_of_ne below fun same => stale (UInt64.toNat_inj.mp same)
  have gone : k.currentSession ≠ next.sessionId := by
    have up := (moved_numbered numbered room moved).2.1
    intro same
    rw [same] at under
    omega
  have moves : ∀ {j before after}, x.controllers[j]? = some before → after.currentSession = before.currentSession →
      (j = i → submits i (call,answer) + pending after ≤ pending before) → (j ≠ i → submits i (call,answer) = 0) →
      ∃ later, (x.controllers.set j after)[i]? = some later ∧ later.currentSession = k.currentSession ∧
        later.currentSession ≠ next.sessionId ∧ submits i (call,answer) + pending later ≤ pending k := by
    intro j before after there session here apart
    by_cases same : j = i
    · subst same
      obtain rfl := Option.some.inj (there.symm.trans held)
      exact ⟨after,List.getElem?_set_self (List.getElem?_eq_some_iff.mp held).1,session,session ▸ gone,here rfl⟩
    · exact ⟨k,by rwa [List.getElem?_set_ne same],rfl,gone,by rw [apart same,Nat.zero_add]⟩
  cases moved with
  | refused | started | stopped | ended => exact ⟨k,held,rfl,gone,Nat.le_of_eq (Nat.zero_add _)⟩
  | session =>
    have inside := (List.getElem?_eq_some_iff.mp held).1
    exact ⟨k,by rwa [List.getElem?_append_left inside],rfl,gone,Nat.le_of_eq (Nat.zero_add _)⟩
  | controlled there went quiet =>
    refine moves there (control_session went) ?_ fun _ => rfl
    rintro rfl
    obtain rfl := Option.some.inj (there.symm.trans held)
    have step := control_pending prepared stale.symm went
    simp only [submits]
    omega
  | submitted there went gives =>
    refine moves there (control_session went) ?_ fun apart => by simp [submits,apart]
    rintro rfl
    obtain rfl := Option.some.inj (there.symm.trans held)
    have step := control_pending prepared stale.symm went
    rw [charge,gives] at step
    simpa [submits] using step
  | worked there went =>
    refine moves there (work_session went) (fun _ => ?_) fun _ => rfl
    exact Nat.le_of_eq ((Nat.zero_add _).trans (work_pending went).2)

-- All along a run the sessions have numbers of their own, so one at most is the
-- current one. A session that is not stays so and submits one block more at most.
theorem sessions_exclusive (path : Ran c earlier s) (later : Runs.Run (Miner.turn c) (fun _ _ => True) s calls x)
    (few : earlier.length + calls.length < 2^64) (held : s.controllers[i]? = some k) :
    (sessions x).Nodup ∧ (k.currentSession ≠ s.sessionId →
      (∃ rest, x.controllers[i]? = some rest ∧ rest.currentSession ≠ x.sessionId) ∧ Runs.total (submits i) calls ≤ 1) := by
  have along : Ran c (earlier ++ calls) x := path.trans later
  have numbered := (run_numbered along (by rwa [List.length_append])).1
  refine ⟨numbered.order.imp fun below same => absurd (congrArg UInt64.toNat same) below.ne,?_⟩
  intro stale
  have spent : ∃ rest, x.controllers[i]? = some rest ∧ rest.currentSession ≠ x.sessionId ∧
      Runs.total (submits i) calls + pending rest ≤ pending k := by
    clear along numbered
    induction later with
    | nil => exact ⟨k,held,stale,Nat.le_of_eq (Nat.zero_add _)⟩
    | @step done y call next answer before _ ran ih =>
      rw [List.length_append,List.length_singleton] at few
      obtain ⟨mid,found,stays,spent⟩ := ih (by omega)
      have reached : Ran c (earlier ++ done) y := path.trans before
      have short : (earlier ++ done).length < 2^64 := by rw [List.length_append]; omega
      obtain ⟨numbered,room⟩ := run_numbered reached short
      have prepared := run_prepared reached i mid found
      rw [List.length_append] at room
      obtain ⟨rest,there,_,gone,step⟩ := moved_stale numbered (by omega) found prepared stays (turn_moved ran)
      refine ⟨rest,there,gone,?_⟩
      rw [Runs.total_append,Runs.total_single]
      omega
  obtain ⟨rest,there,gone,step⟩ := spent
  have least := pending_le k
  exact ⟨⟨rest,there,gone⟩,by omega⟩

-- A template that any nonce solves.
def openTemplate : BlockTemplate := .new reference 0 .zero [] 1 0 [] 0x20000000

def openTurn : MinerCall := .controller 0 (.ok openTemplate) (.ok ())

-- A session with one worker that has sent its block, and one that is waiting for it
-- when the miner is stopped.
def foundCalls : List MinerCall :=
  [.start ⟨1,true⟩,.startSession ⟨1,true⟩,openTurn,openTurn,openTurn] ++ List.replicate 6 (.worker 0 0) ++
    [openTurn,openTurn,.stop,.stopSession]

def handoverCalls : List MinerCall := [openTurn,openTurn,.worker 0 0,openTurn,openTurn,openTurn]

theorem foundCalls_stale : (Runs.feed (Miner.turn reference) .new foundCalls).map (fun pair =>
    decide (pair.1.sessionId = 2 ∧ sessions pair.1 = [1])) = some true := by decide +kernel

-- It has one block more to submit, and does.
def handsOver (x : Miner) : Bool :=
  match Runs.feed (Miner.turn reference) x handoverCalls with
  | none => false
  | some (y,_) =>
    match y.turn reference openTurn with
    | some (_,.submitted _ _) => true
    | _ => false

theorem foundCalls_handsOver : (Runs.feed (Miner.turn reference) .new foundCalls).map (fun pair => handsOver pair.1) =
    some true := by decide +kernel

theorem foundCalls_run : ∃ earlier s k calls x block, Ran reference earlier s ∧ s.controllers[0]? = some k ∧
    k.currentSession ≠ s.sessionId ∧ Runs.Run (Miner.turn reference) (fun _ _ => True) s
      (calls ++ [(openTurn,.submitted block (.ok ()))]) x ∧
    earlier.length + (calls ++ [(openTurn,MinerAnswer.submitted block (.ok ()))]).length < 2^64 := by
  obtain ⟨⟨s,answers⟩,ran,stale⟩ := Option.map_eq_some_iff.mp foundCalls_stale
  obtain ⟨number,one⟩ := of_decide_eq_true stale
  obtain ⟨_,again,hands⟩ := Option.map_eq_some_iff.mp foundCalls_handsOver
  obtain rfl := Option.some.inj (again.symm.trans ran)
  unfold handsOver at hands
  split at hands
  · cases hands
  · rename_i y replies fed
    split at hands
    · rename_i x block accepted last
      obtain ⟨k,held⟩ : ∃ k, s.controllers = [k] := List.length_eq_one_iff.mp (by
        have length := congrArg List.length one
        simpa [sessions] using length)
      have session : k.currentSession = 1 := by simpa [sessions,held] using one
      obtain rfl : accepted = .ok () := by
        cases turn_moved last
        rfl
      obtain ⟨path,first⟩ := Runs.feed_run ran
      obtain ⟨later,second⟩ := Runs.feed_run fed
      refine ⟨_,s,k,_,x,block,path,by rw [held]; rfl,by rw [session,number]; decide,.step later trivial last,?_⟩
      rw [List.length_append,List.length_zip,List.length_zip,← first,← second,List.length_singleton]
      decide
    · cases hands

theorem sessions_exclusive_foundCalls : ∃ (s : Miner) (k : Controller) (calls : List (MinerCall × MinerAnswer)) (x : Miner),
    s.controllers[0]? = some k ∧ k.currentSession ≠ s.sessionId ∧ Runs.total (submits 0) calls = 1 ∧ (sessions x).Nodup := by
  obtain ⟨earlier,s,k,calls,x,block,path,held,stale,later,few⟩ := foundCalls_run
  obtain ⟨apart,spent⟩ := sessions_exclusive path later few held
  refine ⟨s,k,calls ++ [(openTurn,.submitted block (.ok ()))],x,held,stale,?_,apart⟩
  have bound := (spent stale).2
  rw [Runs.total_append] at bound ⊢
  have one : Runs.total (submits 0) [(openTurn,.submitted block (.ok ()))] = 1 := rfl
  omega

-- Every block that is submitted is a template that the session was given before, with
-- a nonce that meets its target.
theorem submitted_mined (path : Ran c calls x)
    (split : calls = earlier ++ (.controller i made accepted,.submitted block accepted') :: later) :
    ∃ template, Given earlier i template ∧ Mined c template block := by
  obtain ⟨y,mid,before,_,ran,_⟩ := path.around split
  cases turn_moved ran with
  | submitted held _ submits =>
    have prepared := run_prepared before i _ held
    unfold Controller.submits at submits
    split at submits <;> rename_i here
    · cases submits
      exact prepared.submitting here
    · cases submits

theorem submitted_mined_foundCalls : ∃ calls block template, Given calls 0 template ∧ Mined reference template block := by
  obtain ⟨earlier,s,k,calls,x,block,path,_,_,later,_⟩ := foundCalls_run
  have along := path.trans later
  rw [← List.append_assoc] at along
  exact ⟨_,block,submitted_mined along rfl⟩

-- A session that nothing has told to end.
structure Live (c : Crates) (k : Controller) : Prop where
  crew : 0 < k.workerCount
  goes : k.next ≠ .stopped
  steady : ∀ search, k.next = .search search → search.currentSession = k.currentSession ∧ Steady c search

theorem control_live (live : Live c before) (went : before.control true before.currentSession made = some after) :
    Live c after := by
  unfold Controller.control at went
  dsimp only at went
  split at went <;> rename_i here
  · cases went
    exact ⟨live.crew,nofun,nofun⟩
  · rw [if_pos rfl] at went
    cases went
    exact ⟨live.crew,nofun,nofun⟩
  · split at went
    · cases went
      exact ⟨live.crew,nofun,nofun⟩
    · split at went <;> cases went
      · exact ⟨live.crew,nofun,nofun⟩
      · refine ⟨live.crew,nofun,?_⟩
        rintro search same
        cases same
        exact ⟨rfl,start_steady _ _ live.crew⟩
  · rename_i search
    obtain ⟨owns,steady⟩ := live.steady search here
    split at went <;> rename_i waits
    · cases went
      exact ⟨live.crew,nofun,nofun⟩
    · exact absurd (by rw [waits]; rfl) steady.unstopped
    · cases went
      exact ⟨live.crew,nofun,nofun⟩
    · obtain ⟨later,ran,same⟩ := Option.bind_eq_some_iff.mp went
      cases same
      refine ⟨live.crew,nofun,?_⟩
      rintro _ same
      cases same
      exact ⟨(wait_parts ran).1.trans owns,wait_steady steady (owns ▸ ran)⟩
  · cases went
    exact ⟨live.crew,nofun,nofun⟩
  · cases went

theorem work_live (live : Live c before) (went : before.work c true before.currentSession j = some after) : Live c after := by
  unfold Controller.work at went
  split at went <;> rename_i here
  · obtain ⟨owns,steady⟩ := live.steady _ here
    split at went
    · cases went
    · rename_i held
      obtain ⟨later,ran,same⟩ := Option.map_eq_some_iff.mp went
      cases same
      refine ⟨live.crew,nofun,?_⟩
      rintro _ same
      cases same
      exact ⟨(work_parts ran).1.trans owns,work_steady steady held (owns ▸ ran)⟩
  · cases went

-- No call sets `running` while another that has cleared it is still to end the
-- session.
def Apart (x : Miner) (call : MinerCall) : Prop := ∀ settings, call = .start settings → x.running = false → x.stopping = 0

variable {lives : Controller → Prop}

structure Newest (lives : Controller → Prop) (x : Miner) (i : Nat) (k : Controller) : Prop where
  last : i + 1 = x.controllers.length
  held : x.controllers[i]? = some k
  current : k.currentSession = x.sessionId
  live : lives k

def Mining (lives : Controller → Prop) (x : Miner) : Prop :=
  x.running = true → x.stopping = 0 ∧ (x.starting = [] → ∃ i k, Newest lives x i k)

theorem newest_set (newest : Newest lives x i k) (held : x.controllers[j]? = some before)
    (session : after.currentSession = before.currentSession) (keeps : before = k → lives after) :
    ∃ later, i + 1 = (x.controllers.set j after).length ∧ (x.controllers.set j after)[i]? = some later ∧
      later.currentSession = x.sessionId ∧ lives later := by
  by_cases same : j = i
  · subst same
    obtain rfl := Option.some.inj (held.symm.trans newest.held)
    exact ⟨after,by rw [List.length_set,newest.last],List.getElem?_set_self (List.getElem?_eq_some_iff.mp held).1,
      session.trans newest.current,keeps rfl⟩
  · exact ⟨k,by rw [List.length_set,newest.last],by rw [List.getElem?_set_ne same,newest.held],newest.current,newest.live⟩

-- What a running session keeps, the newest one has while the miner runs.
theorem moved_mining
    (fresh : ∀ session (settings : MiningSettings),
      lives ⟨session,max settings.workerCount 1,settings.mineEmptyBlocks,.loadRunning⟩)
    (controls : ∀ {i made accepted before after}, call = .controller i made accepted → lives before →
      before.control true before.currentSession made = some after → lives after)
    (works : ∀ {j before after}, lives before → before.work c true before.currentSession j = some after → lives after)
    (mining : Mining lives x) (apart : Apart x call) (moved : Moved c x call next answer) : Mining lives next := by
  intro running
  cases moved with
  | refused => exact mining running
  | started idle => exact ⟨apart _ rfl idle,nofun⟩
  | session =>
    refine ⟨(mining running).1,fun _ => ⟨x.controllers.length,_,?_,List.getElem?_concat_length,rfl,fresh _ _⟩⟩
    rw [List.length_append,List.length_singleton]
  | stopped => cases running
  | ended some => exact absurd (mining running).1 some
  | controlled held went | submitted held went =>
    refine ⟨(mining running).1,fun none => ?_⟩
    obtain ⟨i,k,newest⟩ := (mining running).2 none
    obtain ⟨later,last,there,current,live⟩ := newest_set newest held (control_session went) fun same => by
      subst same
      have running : x.running = true := running
      rw [running,← newest.current] at went
      exact controls rfl newest.live went
    exact ⟨i,later,last,there,current,live⟩
  | worked held went =>
    refine ⟨(mining running).1,fun none => ?_⟩
    obtain ⟨i,k,newest⟩ := (mining running).2 none
    obtain ⟨later,last,there,current,live⟩ := newest_set newest held (work_session went) fun same => by
      subst same
      have running : x.running = true := running
      rw [running,← newest.current] at went
      exact works newest.live went
    exact ⟨i,later,last,there,current,live⟩

theorem fresh_live (session : UInt64) (settings : MiningSettings) :
    Live c ⟨session,max settings.workerCount 1,settings.mineEmptyBlocks,.loadRunning⟩ :=
  ⟨lt_of_lt_of_le one_pos (le_max_right _ _),nofun,nofun⟩

theorem new_mining : Mining lives .new := by
  intro running
  cases running

-- A stop that is overtaken by a start ends the session of that start: the miner says
-- it is running, and nobody mines.
theorem overlap_stalls : (Runs.feed (Miner.turn reference) .new [.start ⟨1,true⟩,.startSession ⟨1,true⟩,.stop,
    .start ⟨1,true⟩,.startSession ⟨1,true⟩,.stopSession]).map (fun pair => decide (pair.1.running = true ∧
      pair.1.starting = [] ∧ pair.1.stopping = 0 ∧ pair.1.sessionId ∉ sessions pair.1)) = some true := by decide +kernel

end BlindEye.MinerSessions
