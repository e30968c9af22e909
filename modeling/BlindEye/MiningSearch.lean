import BlindEye.MiningThreads

namespace BlindEye.MiningSearch

variable {c : Crates} {x y : Search} {w worker : Worker} {running : Bool} {sessionId : UInt64} {i j : Nat}

-- A block that the template becomes with a nonce that meets the target.
def Mined (c : Crates) (template : BlockTemplate) (block : Block) : Prop :=
  ∃ nonce, block = template.mined nonce ∧ template.hits c nonce = true

def outcome : Waiting → Option (Except MiningError Block)
  | .storeFound result | .join result _ | .returned result => some result
  | .loadRunning | .loadSession | .receive => none

-- What holds of a search whoever stops it and whenever.
structure Sound (c : Crates) (x : Search) : Prop where
  struck : ∀ w ∈ x.workers, w.next = .storeFound ∨ w.next = .send → x.template.hits c w.nonce = true
  sent : ∀ news ∈ x.channel, ∃ block, news = .ok block ∧ Mined c x.template block
  answered : ∀ result, outcome x.waiting = some result →
    result = .error .stopped ∨ ∃ block, result = .ok block ∧ Mined c x.template block

@[simp] theorem put_template : (x.put i worker).template = x.template := rfl
@[simp] theorem put_session : (x.put i worker).currentSession = x.currentSession := rfl
@[simp] theorem put_found : (x.put i worker).found = x.found := rfl
@[simp] theorem put_channel : (x.put i worker).channel = x.channel := rfl
@[simp] theorem put_workers : (x.put i worker).workers = x.workers.set i worker := rfl
@[simp] theorem put_waiting : (x.put i worker).waiting = x.waiting := rfl

theorem start_sound (template : BlockTemplate) (workerCount : Nat) (session : UInt64) :
    Sound c (.mineTemplateParallel template workerCount session) := by
  refine ⟨?_,nofun,nofun⟩
  intro w member either
  obtain ⟨k,_,rfl⟩ := List.mem_map.mp member
  rcases either with next | next <;> cases next

theorem Sound.put (sound : Sound c x) (good : worker.next = .storeFound ∨ worker.next = .send →
    x.template.hits c worker.nonce = true) : Sound c (x.put i worker) := by
  refine ⟨?_,sound.sent,sound.answered⟩
  intro w member either
  rcases List.mem_or_eq_of_mem_set member with old | rfl
  · exact sound.struck w old either
  · exact good either

theorem work_sound (sound : Sound c x) (held : x.workers[i]? = some w)
    (ran : x.work c running sessionId i w = some y) : Sound c y := by
  have member := List.mem_of_getElem? held
  have apart : ∀ {next : WorkerStep}, next ≠ .storeFound → next ≠ .send →
      { w with next }.next = .storeFound ∨ { w with next }.next = .send → x.template.hits c w.nonce = true :=
    fun store send either => either.elim (absurd · store) (absurd · send)
  unfold Search.work at ran
  split at ran
  · cases ran
    exact sound.put (apart (by split <;> decide) (by split <;> decide))
  · cases ran
    exact sound.put (apart (by split <;> decide) (by split <;> decide))
  · cases ran
    exact sound.put (apart (by split <;> decide) (by split <;> decide))
  · split at ran
    · rename_i hit
      cases ran
      exact sound.put fun _ => hit
    · cases ran
      exact sound.put fun either => by rcases either with next | next <;> cases next
  · rename_i next
    cases ran
    have found : Sound c { x with found := true } := ⟨sound.struck,sound.sent,sound.answered⟩
    exact found.put fun _ => sound.struck w member (.inl next)
  · rename_i next
    cases ran
    have sent : Sound c { x with channel := x.channel ++ [Except.ok (x.template.mined w.nonce)] } := by
      refine ⟨sound.struck,?_,sound.answered⟩
      intro news either
      rcases List.mem_append.mp either with old | new
      · exact sound.sent news old
      · obtain rfl := List.mem_singleton.mp new
        exact ⟨_,rfl,w.nonce,rfl,sound.struck w member (.inr next)⟩
    exact sent.put fun _ => sound.struck w member (.inr next)
  · cases ran
    exact sound.put (apart (by decide) (by decide))
  · cases ran

theorem wait_sound (sound : Sound c x) (ran : x.wait running sessionId = some y) : Sound c y := by
  unfold Search.wait at ran
  split at ran
  · cases ran
    refine ⟨sound.struck,sound.sent,?_⟩
    intro result given
    dsimp only at given
    split at given
    · cases given
    · cases given
      exact .inl rfl
  · cases ran
    refine ⟨sound.struck,sound.sent,?_⟩
    intro result given
    dsimp only at given
    split at given
    · cases given
    · cases given
      exact .inl rfl
  · split at ran
    · rename_i block channel items
      cases ran
      obtain ⟨sent,same,mined⟩ := sound.sent (.ok block) (items ▸ List.mem_cons_self)
      cases same
      refine ⟨sound.struck,fun news member => sound.sent news (items ▸ List.mem_cons_of_mem _ member),?_⟩
      rintro result given
      cases given
      exact .inr ⟨_,rfl,mined⟩
    · rename_i err channel items
      cases ran
      obtain ⟨sent,same,_⟩ := sound.sent (.error err) (items ▸ List.mem_cons_self)
      cases same
    · split at ran
      · cases ran
        refine ⟨sound.struck,sound.sent,?_⟩
        rintro result given
        cases given
        exact .inl rfl
      · cases ran
        exact ⟨sound.struck,sound.sent,nofun⟩
  · rename_i result here
    cases ran
    exact ⟨sound.struck,sound.sent,fun _ given => sound.answered _ (by rw [here]; exact given)⟩
  · rename_i result joined here
    split at ran
    · cases ran
      exact ⟨sound.struck,sound.sent,fun _ given => sound.answered _ (by rw [here]; exact given)⟩
    · split at ran
      · cases ran
        exact ⟨sound.struck,sound.sent,fun _ given => sound.answered _ (by rw [here]; exact given)⟩
      · cases ran
  · cases ran

def joining : Waiting → Bool
  | .join _ _ | .returned _ => true
  | .loadRunning | .loadSession | .receive | .storeFound _ => false

-- A search that its session has kept going: nobody gives up before a nonce is found,
-- and the news of it is under way for as long as it is awaited.
structure Steady (c : Crates) (x : Search) : Prop extends Sound c x where
  crew : x.workers ≠ []
  flagged : ∀ w ∈ x.workers, w.next = .send ∨ w.next = .drop ∨ w.next = .returned → x.found = true
  news : x.found = true → outcome x.waiting = none → x.channel ≠ [] ∨ ∃ w ∈ x.workers, w.next = .send
  unstopped : outcome x.waiting ≠ some (.error .stopped)
  raised : joining x.waiting = true → x.found = true

theorem start_steady (template : BlockTemplate) (session : UInt64) (positive : 0 < workerCount) :
    Steady c (.mineTemplateParallel template workerCount session) := by
  refine ⟨start_sound template workerCount session,?_,?_,nofun,nofun,nofun⟩
  · intro empty
    have length := congrArg List.length empty
    simp only [Search.mineTemplateParallel,List.length_map,List.length_range,List.length_nil] at length
    omega
  · intro w member either
    obtain ⟨k,_,rfl⟩ := List.mem_map.mp member
    rcases either with next | next | next <;> cases next

-- The other workers stay as they are.
theorem member_set {workers : List Worker} (held : workers[i]? = some w) (member : v ∈ workers) (other : v ≠ w) :
    v ∈ workers.set i worker := by
  obtain ⟨j,found⟩ := List.mem_iff_getElem?.mp member
  have apart : i ≠ j := by
    rintro rfl
    exact other (Option.some.inj (found.symm.trans held))
  exact List.mem_of_getElem? (by rwa [List.getElem?_set_ne apart])

theorem Steady.crew_set (steady : Steady c x) : x.workers.set i worker ≠ [] := by
  have length := List.length_pos_iff.mpr steady.crew
  apply List.length_pos_iff.mp
  rwa [List.length_set]

theorem Steady.put (steady : Steady c x) (held : x.workers[i]? = some w) (sender : w.next ≠ .send)
    (good : worker.next = .storeFound ∨ worker.next = .send → x.template.hits c worker.nonce = true)
    (flag : worker.next = .send ∨ worker.next = .drop ∨ worker.next = .returned → x.found = true) :
    Steady c (x.put i worker) := by
  refine ⟨steady.toSound.put good,steady.crew_set,?_,?_,steady.unstopped,steady.raised⟩
  · intro v member either
    rcases List.mem_or_eq_of_mem_set member with old | rfl
    · exact steady.flagged v old either
    · exact flag either
  · intro found waits
    refine (steady.news found waits).imp_right ?_
    rintro ⟨v,member,next⟩
    refine ⟨v,member_set held member ?_,next⟩
    rintro rfl
    exact sender next

theorem work_steady (steady : Steady c x) (held : x.workers[i]? = some w)
    (ran : x.work c true x.currentSession i w = some y) : Steady c y := by
  have member := List.mem_of_getElem? held
  have sound := work_sound steady.toSound held ran
  have quiet : ∀ {next : WorkerStep}, next ≠ .storeFound → next ≠ .send →
      { w with next }.next = .storeFound ∨ { w with next }.next = .send → x.template.hits c w.nonce = true :=
    fun store send either => either.elim (absurd · store) (absurd · send)
  unfold Search.work at ran
  split at ran <;> rename_i here
  · cases ran
    exact steady.put held (by rw [here]; decide) nofun nofun
  · cases ran
    rw [if_pos rfl]
    exact steady.put held (by rw [here]; decide) (quiet (by decide) (by decide)) (by simp)
  · cases ran
    refine steady.put held (by rw [here]; decide) (quiet (by split <;> decide) (by split <;> decide)) ?_
    split
    · rename_i found
      exact fun _ => found
    · simp
  · split at ran
    · rename_i hit
      cases ran
      exact steady.put held (by rw [here]; decide) (fun _ => hit) (by simp)
    · cases ran
      exact steady.put held (by rw [here]; decide) (by simp) (by simp)
  · -- The flag is up, and its owner has the news.
    cases ran
    refine ⟨sound,steady.crew_set,fun _ _ _ => rfl,fun _ _ => .inr ?_,steady.unstopped,fun _ => rfl⟩
    exact ⟨_,List.mem_set (List.getElem?_eq_some_iff.mp held).1 _,rfl⟩
  · cases ran
    have found := steady.flagged w member (.inl here)
    refine ⟨sound,steady.crew_set,fun _ _ _ => found,fun _ _ => .inl ?_,steady.unstopped,steady.raised⟩
    exact List.append_ne_nil_of_right_ne_nil _ (List.cons_ne_nil _ _)
  · cases ran
    have found := steady.flagged w member (.inr (.inl here))
    exact steady.put held (by rw [here]; decide) (by simp) fun _ => found
  · cases ran

-- Not all workers are gone before the news is there.
theorem Steady.company (steady : Steady c x) (waits : outcome x.waiting = none) (empty : x.channel = []) :
    (x.workers.all fun worker => worker.next = .returned) = false := by
  by_contra gone
  simp only [Bool.not_eq_false,List.all_eq_true,decide_eq_true_eq] at gone
  obtain ⟨w,rest,crew⟩ := List.exists_cons_of_ne_nil steady.crew
  have member : w ∈ x.workers := crew ▸ List.mem_cons_self
  have found := steady.flagged w member (.inr (.inr (gone w member)))
  rcases steady.news found waits with news | ⟨v,sender,next⟩
  · exact news empty
  · rw [gone v sender] at next
    cases next

theorem wait_steady (steady : Steady c x) (ran : x.wait true x.currentSession = some y) : Steady c y := by
  have sound := wait_sound steady.toSound ran
  unfold Search.wait at ran
  split at ran <;> rename_i here
  · cases ran
    exact ⟨sound,steady.crew,steady.flagged,fun found _ => steady.news found (by rw [here]; rfl),nofun,nofun⟩
  · rw [if_pos rfl] at ran
    cases ran
    exact ⟨sound,steady.crew,steady.flagged,fun found _ => steady.news found (by rw [here]; rfl),nofun,nofun⟩
  · split at ran
    · cases ran
      exact ⟨sound,steady.crew,steady.flagged,fun _ => nofun,nofun,nofun⟩
    · cases ran
      exact ⟨sound,steady.crew,steady.flagged,fun _ => nofun,nofun,nofun⟩
    · rename_i empty
      rw [steady.company (by rw [here]; rfl) empty] at ran
      cases ran
      exact ⟨sound,steady.crew,steady.flagged,fun found _ => steady.news found (by rw [here]; rfl),nofun,nofun⟩
  · cases ran
    exact ⟨sound,steady.crew,fun _ _ _ => rfl,fun _ => nofun,fun stopped => steady.unstopped (by rw [here]; exact stopped),
      fun _ => rfl⟩
  · have kept : ∀ {waiting}, outcome waiting = outcome x.waiting → Sound c { x with waiting } → outcome waiting ≠ none →
        Steady c { x with waiting } := fun same sound given =>
      ⟨sound,steady.crew,steady.flagged,fun _ none => absurd none given,fun stopped => steady.unstopped (same ▸ stopped),
        fun _ => steady.raised (by rw [here]; rfl)⟩
    split at ran
    · cases ran
      exact kept (by rw [here]; rfl) sound nofun
    · split at ran
      · cases ran
        exact kept (by rw [here]; rfl) sound nofun
      · cases ran
  · cases ran

end BlindEye.MiningSearch
