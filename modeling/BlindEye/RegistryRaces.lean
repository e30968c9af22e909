import BlindEye.Library.Fallible
import BlindEye.Library.FiniteMap
import BlindEye.Library.Runs
import BlindEye.RpcRegistry

namespace BlindEye.RegistryRaces
open RpcRegistry

variable {php : Php} {text url : String} {parts : UrlParts} {host : String} {port : Nat} {entry : Endpoint}
  {registry file : Registry} {known : Finset String} {x next origin : Site} {t : Turn} {reply : Reply}

-- What PHP documents of `parse_url`, for a URL that is put together from parsed
-- parts: no blanks at its ends, and the same parts again.
structure UrlLaws (php : Php) : Prop where
  clean : ∀ text parts host port, php.parseUrl text = some parts → hostPort parts = some (host,port) →
    trim (formatUrl (parts.scheme.getD "tcp") host port) = formatUrl (parts.scheme.getD "tcp") host port
  reparse : ∀ text parts host port, php.parseUrl text = some parts → hostPort parts = some (host,port) →
    php.parseUrl (formatUrl (parts.scheme.getD "tcp") host port) =
      some ⟨some (parts.scheme.getD "tcp"),some host,some port⟩

-- A URL that a load keeps as it is.
structure Stable (php : Php) (url : String) : Prop where
  present : isEmpty url = false
  canonical : canonicalRpcUrl php url = .ok url

abbrev Schemed (text : String) : Prop := "://".toList <:+: text.toList

theorem infix_dropWhile {α : Type} {p : α → Bool} {mark items : List α} (nonempty : mark ≠ []) (marked : ∀ a ∈ mark, p a = false)
    (inside : mark <:+: items) : mark <:+: items.dropWhile p := by
  obtain ⟨before,after,rfl⟩ := inside
  have kept : (mark ++ after).dropWhile p = mark ++ after := by
    obtain ⟨first,rest,rfl⟩ := List.exists_cons_of_ne_nil nonempty
    rw [List.cons_append,List.dropWhile_cons_of_neg]
    simp [marked first List.mem_cons_self]
  rw [List.append_assoc,List.dropWhile_append]
  split
  · rw [kept]
    exact List.infix_append' [] mark after
  · rw [← List.append_assoc]
    exact List.infix_append _ mark after

theorem trim_keeps {mark : List Char} (nonempty : mark ≠ []) (marked : ∀ ch ∈ mark, blank ch = false)
    (inside : mark <:+: text.toList) : mark <:+: (trim text).toList := by
  have front := infix_dropWhile nonempty marked inside
  have back : mark.reverse <:+: (text.toList.dropWhile blank).reverse := List.reverse_infix.mpr front
  have both := infix_dropWhile (by simpa using nonempty) (by simpa using marked) back
  rw [trim,String.toList_ofList]
  exact List.reverse_infix.mp (by simpa [List.rdropWhile] using both)

theorem schemed_trim (schemed : Schemed text) : Schemed (trim text) := by
  refine trim_keeps (List.cons_ne_nil ':' ['/','/']) ?_ schemed
  simp [blank]

-- A text that is not blank is not blank after `trim` either.
theorem trim_trim (nonempty : trim text ≠ "") : trim (trim text) ≠ "" := by
  have kept : (text.toList.dropWhile blank).rdropWhile blank ≠ [] := by
    intro empty
    rw [trim,empty] at nonempty
    exact nonempty rfl
  have last := List.rdropWhile_last_not blank (text.toList.dropWhile blank) kept
  have inside : [((text.toList.dropWhile blank).rdropWhile blank).getLast kept] <:+: (trim text).toList := by
    obtain ⟨before,after,split⟩ := List.append_of_mem (List.getLast_mem kept)
    rw [trim,String.toList_ofList]
    exact ⟨before,after,by rw [List.append_assoc]; exact split.symm⟩
  have again := trim_keeps (List.cons_ne_nil _ _) (by simpa using last) inside
  intro empty
  rw [empty] at again
  exact absurd (again.subset (List.mem_singleton_self _)) List.not_mem_nil

theorem schemed_format (scheme host : String) (port : Nat) : Schemed (formatUrl scheme host port) := by
  refine ⟨scheme.toList,host.toList ++ ":".toList ++ (toString port).toList,?_⟩
  simp only [formatUrl,String.toList_append,List.append_assoc]

theorem schemed_present (schemed : Schemed text) : text ≠ "" ∧ isEmpty text = false := by
  have long : 3 ≤ text.toList.length := schemed.length_le
  have short : ∀ other, other.toList.length < 3 → text ≠ other := by
    intro other few equal
    rw [equal] at long
    omega
  have empty := short "" (by decide)
  have zero := short "0" (by decide)
  exact ⟨empty,by simp [isEmpty,empty,zero]⟩

theorem hostPort_again (complete : hostPort parts = some (host,port)) (scheme : Option String) :
    hostPort ⟨scheme,some host,some port⟩ = some (host,port) := by
  obtain ⟨_,_ | host',_ | port'⟩ := parts
  · cases complete
  · cases complete
  · cases complete
  · by_cases empty : (isEmpty host' || port' == 0) = true
    · simp [hostPort,empty] at complete
    · simp only [hostPort,if_neg empty,Option.some.injEq,Prod.mk.injEq] at complete
      obtain ⟨rfl,rfl⟩ := complete
      simp only [hostPort,if_neg empty]

theorem formatted_stable (laws : UrlLaws php) (parsed : php.parseUrl text = some parts)
    (complete : hostPort parts = some (host,port)) : Stable php (formatUrl (parts.scheme.getD "tcp") host port) := by
  have schemed := schemed_format (parts.scheme.getD "tcp") host port
  obtain ⟨nonempty,present⟩ := schemed_present schemed
  refine ⟨present,?_⟩
  have again := hostPort_again complete (some (parts.scheme.getD "tcp"))
  unfold canonicalRpcUrl
  rw [laws.clean _ _ _ _ parsed complete]
  dsimp only
  rw [if_neg nonempty,if_neg (not_not.mpr schemed),laws.reparse _ _ _ _ parsed complete]
  simp only [again,Option.getD_some]

-- The answer for a text with a scheme is stable.
theorem canonical_stable (laws : UrlLaws php) (schemed : Schemed text) (made : canonicalRpcUrl php text = .ok url) :
    Stable php url := by
  have schemed := schemed_trim schemed
  obtain ⟨nonempty,_⟩ := schemed_present schemed
  unfold canonicalRpcUrl at made
  dsimp only at made
  rw [if_neg nonempty,if_neg (not_not.mpr schemed)] at made
  split at made
  · cases made
  · rename_i parts parsed
    split at made
    · cases made
    · rename_i host port complete
      cases made
      exact formatted_stable laws parsed complete

-- A text that is not blank has a scheme after `canonical_rpc_url`.
theorem canonical_schemed (nonempty : trim text ≠ "") (made : canonicalRpcUrl php text = .ok url) : Schemed url := by
  unfold canonicalRpcUrl at made
  dsimp only at made
  rw [if_neg nonempty] at made
  split at made
  · cases made
    refine ⟨"tcp".toList,(trim text).toList,?_⟩
    rw [String.toList_append]
    rfl
  · split at made
    · cases made
    · split at made
      · cases made
      · cases made
        exact schemed_format _ _ _

theorem normalize_schemed {candidates : List String} (nonempty : trim text ≠ "")
    (made : normalizeRegistryPublishUrl php candidates text = .ok url) : Schemed url := by
  obtain ⟨canonical,first,rest⟩ := Fallible.bind_ok.mp made
  have schemed := canonical_schemed nonempty first
  split at rest
  · cases rest
    exact schemed
  · split at rest
    · cases rest
      exact schemed
    · split at rest
      · cases rest
        exact schemed
      · split at rest
        · cases rest
          exact schemed
        · cases rest
          exact schemed_format _ _ _

theorem publishEntry_stable (laws : UrlLaws php) {request : PublishRequest} {probe : Except String Probe} {now : Int}
    (made : publishEntry php request probe now = .ok entry) : Stable php entry.rpcUrl := by
  unfold publishEntry at made
  split at made
  · cases made
  · rename_i nonempty
    obtain ⟨normal,first,rest⟩ := Fallible.bind_ok.mp made
    obtain ⟨rpcUrl,second,last⟩ := Fallible.bind_ok.mp rest
    have stable := canonical_stable laws (normalize_schemed (trim_trim nonempty) first) second
    split at last
    · cases last
      exact stable
    · cases last
      exact stable

-- The URLs are kept apart, stay as they are, and are among those of the run.
structure Good (php : Php) (known : Finset String) (registry : Registry) : Prop where
  distinct : (urls registry).Nodup
  stable : ∀ url ∈ urls registry, Stable php url
  known : ∀ url ∈ urls registry, url ∈ known

theorem urls_byHeight (registry : Registry) : (urls (byHeight registry)).Perm (urls registry) :=
  (List.perm_insertionSort _ _).map _

theorem Good.perm (good : Good php known registry) (perm : (urls file).Perm (urls registry)) : Good php known file :=
  ⟨perm.nodup_iff.mpr good.distinct,fun url member => good.stable url (perm.mem_iff.mp member),
    fun url member => good.known url (perm.mem_iff.mp member)⟩

theorem assign_fresh (fresh : entry.rpcUrl ∉ urls registry) : assign registry entry = registry ++ [entry] := by
  have absent : ¬ (registry.any fun old => decide (old.rpcUrl = entry.rpcUrl)) = true := by
    intro present
    obtain ⟨old,member,same⟩ := List.any_eq_true.mp present
    exact fresh (of_decide_eq_true same ▸ List.mem_map_of_mem member)
  rw [assign,if_neg absent]

-- A load of such a file reads every entry as it stands.
theorem loadRegistry_good (good : Good php known file) : loadRegistry php file = .ok (byHeight file) := by
  have general : ∀ rest done, Good php known (done ++ rest) → rest.foldlM (fun registry entry =>
      if isEmpty entry.rpcUrl then .ok registry
      else (canonicalRpcUrl php entry.rpcUrl).map fun rpcUrl => assign registry { entry with rpcUrl }) done =
        (.ok (done ++ rest) : Except String Registry) := by
    intro rest
    induction rest with
    | nil =>
      intro done _
      rw [List.append_nil]
      rfl
    | cons entry rest ih =>
      intro done good
      have same : done ++ entry :: rest = (done ++ [entry]) ++ rest := by simp
      have inside : entry.rpcUrl ∈ urls (done ++ entry :: rest) := List.mem_map_of_mem (by simp)
      have fresh : entry.rpcUrl ∉ urls done := by
        have distinct := good.distinct
        rw [urls,List.map_append,List.map_cons] at distinct
        exact fun before => List.disjoint_of_nodup_append distinct before List.mem_cons_self
      obtain ⟨present,canonical⟩ := good.stable _ inside
      have first : (if isEmpty entry.rpcUrl then .ok done
          else (canonicalRpcUrl php entry.rpcUrl).map fun rpcUrl => assign done { entry with rpcUrl }) =
          (.ok (done ++ [entry]) : Except String Registry) := by
        rw [present,canonical,if_neg Bool.false_ne_true]
        exact congrArg Except.ok (assign_fresh fresh)
      rw [List.foldlM_cons,first,Fallible.ok_bind]
      rw [same] at good ⊢
      exact ih _ good
  unfold loadRegistry
  rw [general file [] good]
  rfl

theorem urls_assign : urls (assign registry entry) =
    if entry.rpcUrl ∈ urls registry then urls registry else urls registry ++ [entry.rpcUrl] := by
  by_cases present : entry.rpcUrl ∈ urls registry
  · obtain ⟨old,member,same⟩ := List.mem_map.mp present
    have found : (registry.any fun old => decide (old.rpcUrl = entry.rpcUrl)) = true :=
      List.any_eq_true.mpr ⟨old,member,decide_eq_true same⟩
    rw [if_pos present,assign,if_pos found,urls,List.map_map]
    apply List.map_congr_left
    intro old _
    dsimp only [Function.comp]
    split
    · rename_i same
      exact same.symm
    · rfl
  · rw [if_neg present,assign_fresh present]
    simp [urls]

theorem mem_upsert : url ∈ urls (upsertRegistryEntry registry entry) ↔ url ∈ urls registry ∨ some entry.rpcUrl = some url := by
  rw [upsertRegistryEntry,(urls_byHeight _).mem_iff,urls_assign,Option.some.injEq]
  split
  · rename_i present
    constructor
    · exact .inl
    · rintro (old | rfl)
      · exact old
      · exact present
  · rw [List.mem_append,List.mem_singleton,eq_comm]

theorem upsert_good (good : Good php known registry) (stable : Stable php entry.rpcUrl) (inside : entry.rpcUrl ∈ known) :
    Good php known (upsertRegistryEntry registry entry) := by
  refine ⟨?_,?_,?_⟩
  · rw [upsertRegistryEntry,(urls_byHeight _).nodup_iff,urls_assign]
    split
    · exact good.distinct
    · rename_i fresh
      exact List.nodup_append'.mpr ⟨good.distinct,List.nodup_singleton _,by simpa using fresh⟩
  · intro url member
    rcases mem_upsert.mp member with old | new
    · exact good.stable url old
    · exact Option.some.inj new ▸ stable
  · intro url member
    rcases mem_upsert.mp member with old | new
    · exact good.known url old
    · exact Option.some.inj new ▸ inside

-- No entry is dropped where none is stale, and a probe changes no URL.
theorem urls_status (probe : String → Except String Probe) (now : Int)
    (fresh : ∀ entry ∈ registry, ¬ entry.lastSeen + staleAfterSeconds < now) :
    (urls (liveRegistryStatus now probe registry)).Perm (urls registry) := by
  refine (urls_byHeight _).trans (List.Perm.of_eq ?_)
  induction registry with
  | nil => rfl
  | cons entry rest ih =>
    obtain ⟨here,later⟩ := List.forall_mem_cons.mp fresh
    have kept : ∃ new, refreshed now probe entry = some new ∧ new.rpcUrl = entry.rpcUrl := by
      unfold refreshed
      split
      · exact ⟨_,rfl,rfl⟩
      · rw [if_neg here]
        exact ⟨_,rfl,rfl⟩
    obtain ⟨new,made,same⟩ := kept
    have tail := ih later
    unfold urls at *
    rw [List.filterMap_cons_some made,List.map_cons,List.map_cons,tail,same]

theorem saveRegistry_all (few : known.card < maxEndpoints) (good : Good php known registry) :
    saveRegistry registry = registry := by
  have bound : (urls registry).length ≤ known.card := by
    rw [← List.toFinset_card_of_nodup good.distinct]
    exact Finset.card_le_card fun url member => good.known url (List.mem_toFinset.mp member)
  rw [urls,List.length_map] at bound
  exact List.take_of_length_le (by omega)

-- What a request that is about to save has read, and what it will write.
structure PendingGood (php : Php) (known : Finset String) (request : PendingSave) : Prop where
  good : Good php known request.registry
  whole : ∀ url, url ∈ urls request.registry ↔ url ∈ request.loaded ∨ request.published = some url

structure Sound (php : Php) (known : Finset String) (x : Site) : Prop where
  file : Good php known x.file
  pending : ∀ id request, x.pending.lookup id = some request → PendingGood php known request

-- The requests of the run: their URLs are known, and no entry that a status
-- request reads is stale.
def Covered (php : Php) (known : Finset String) (x : Site) : Turn → Prop
  | .publish _ request probe now => ∀ entry ∈ (publishEntry php request probe now).toOption, entry.rpcUrl ∈ known
  | .status _ _ now => ∀ entry ∈ x.file, ¬ entry.lastSeen + staleAfterSeconds < now
  | .save .. => True

-- A save finds that every URL answered so far was there when its request read
-- the file, or is the one that it publishes itself.
def Keeps (x : Site) : Turn → Prop
  | .save id true => ∀ request ∈ x.pending.lookup id,
      ∀ url ∈ x.answered, url ∈ request.loaded ∨ request.published = some url
  | _ => True

instance : ∀ t, Decidable (Covered php known x t)
  | .publish _ request probe now => inferInstanceAs
      (Decidable (∀ entry ∈ (publishEntry php request probe now).toOption, entry.rpcUrl ∈ known))
  | .status _ _ now => inferInstanceAs (Decidable (∀ entry ∈ x.file, ¬ entry.lastSeen + staleAfterSeconds < now))
  | .save _ _ => .isTrue trivial

instance : ∀ t, Decidable (Keeps x t)
  | .save id true => inferInstanceAs (Decidable (∀ request ∈ x.pending.lookup id,
      ∀ url ∈ x.answered, url ∈ request.loaded ∨ request.published = some url))
  | .save _ false => .isTrue trivial
  | .publish .. => .isTrue trivial
  | .status .. => .isTrue trivial

-- Every URL whose publish answered ok is in the stored registry.
def Kept (x : Site) : Prop := ∀ url ∈ x.answered, url ∈ urls x.file

-- What one turn can do.
inductive Turned (php : Php) (known : Finset String) (x : Site) : Turn → Site → Reply → Prop where
  | refused {k : Nat} : Turned php known x (.publish k request probe now) x (.failed err)
  | publishing {k : Nat} : PendingGood php known save → Turned php known x (.publish k request probe now)
      { x with pending := x.pending.insert k save } .loading
  | probing {k : Nat} : PendingGood php known save → Turned php known x (.status k probes now)
      { x with pending := x.pending.insert k save } .loading
  | unwritten {k : Nat} : Turned php known x (.save k false) { x with pending := x.pending.erase k } (.failed err)
  | published {k : Nat} : x.pending.lookup k = some save → save.published = some own →
      Turned php known x (.save k true) ⟨save.registry,x.pending.erase k,own :: x.answered⟩ (.published own)
  | listed {k : Nat} : x.pending.lookup k = some save → save.published = none →
      Turned php known x (.save k true) ⟨save.registry,x.pending.erase k,x.answered⟩ (.listed save.registry)

theorem turn_turned (laws : UrlLaws php) (few : known.card < maxEndpoints) (sound : Sound php known x)
    (covered : Covered php known x t) (ran : turn php x t = some (next,reply)) : Turned php known x t next reply := by
  have loads := loadRegistry_good sound.file
  have loaded := urls_byHeight x.file
  cases t with
  | publish id request probe now =>
    simp only [turn] at ran
    split at ran
    · cases ran
    · cases made : publishEntry php request probe now with
      | error text =>
        rw [made] at ran
        cases ran
        exact .refused
      | ok entry =>
        rw [made,loads] at ran
        cases ran
        have good := upsert_good (sound.file.perm loaded) (publishEntry_stable laws made)
          (covered entry (by rw [made]; rfl))
        refine .publishing ⟨good,?_⟩
        intro url
        rw [mem_upsert,loaded.mem_iff]
  | status id probe now =>
    simp only [turn] at ran
    split at ran
    · cases ran
    · rw [loads] at ran
      cases ran
      have fresh : ∀ entry ∈ byHeight x.file, ¬ entry.lastSeen + staleAfterSeconds < now := fun entry member =>
        covered entry ((List.mem_insertionSort _).mp member)
      have same := (urls_status probe now fresh).trans loaded
      refine .probing ⟨sound.file.perm same,?_⟩
      intro url
      simp [same.mem_iff]
  | save id written =>
    simp only [turn] at ran
    cases found : x.pending.lookup id with
    | none =>
      rw [found] at ran
      cases ran
    | some save =>
      rw [found] at ran
      cases written with
      | false =>
        cases ran
        exact .unwritten
      | true =>
        have all := saveRegistry_all few (sound.pending id save found).good
        simp only [not_true_eq_false,if_false,all] at ran
        cases published : save.published with
        | none =>
          rw [published] at ran
          cases ran
          exact .listed found published
        | some url =>
          rw [published] at ran
          cases ran
          exact .published found published

theorem turned_sound (sound : Sound php known x) (turned : Turned php known x t next reply) : Sound php known next := by
  have inserted : ∀ id save, PendingGood php known save → Sound php known { x with pending := x.pending.insert id save } := by
    intro id save good
    refine ⟨sound.file,?_⟩
    intro other request found
    rcases FiniteMap.lookup_insert_cases found with ⟨_,rfl⟩ | ⟨_,before⟩
    · exact good
    · exact sound.pending other request before
  have erased : ∀ id other request, (x.pending.erase id).lookup other = some request → PendingGood php known request := by
    intro id other request found
    exact sound.pending other request (FiniteMap.lookup_erase_some.mp found).2
  cases turned with
  | refused => exact sound
  | publishing good => exact inserted _ _ good
  | probing good => exact inserted _ _ good
  | unwritten => exact ⟨sound.file,erased _⟩
  | published found _ => exact ⟨(sound.pending _ _ found).good,erased _⟩
  | listed found _ => exact ⟨(sound.pending _ _ found).good,erased _⟩

-- A turn loses no answered URL exactly when it keeps them.
theorem turned_kept (sound : Sound php known x) (kept : Kept x) (turned : Turned php known x t next reply) :
    Kept next ↔ Keeps x t := by
  cases turned with
  | refused => exact iff_of_true kept trivial
  | publishing => exact iff_of_true kept trivial
  | probing => exact iff_of_true kept trivial
  | unwritten => exact iff_of_true kept trivial
  | @published save own k found publishes =>
    have whole := (sound.pending _ _ found).whole
    constructor
    · intro after request same url' member
      cases Option.some.inj (found.symm.trans same)
      exact (whole url').mp (after url' (List.mem_cons_of_mem _ member))
    · intro keeps url' member
      rcases List.mem_cons.mp member with rfl | before
      · exact (whole url').mpr (.inr publishes)
      · exact (whole url').mpr (keeps save found url' before)
  | @listed save k found none =>
    have whole := (sound.pending _ _ found).whole
    constructor
    · intro after request same url' member
      cases Option.some.inj (found.symm.trans same)
      exact (whole url').mp (after url' member)
    · intro keeps url' member
      exact (whole url').mpr (keeps save found url' member)

def opened (file : Registry) : Site := ⟨file,∅,[]⟩

theorem opened_sound (good : Good php known file) : Sound php known (opened file) :=
  ⟨good,fun _ _ found => by cases found⟩

theorem publications_kept_exact (laws : UrlLaws php) (few : known.card < maxEndpoints) (good : Good php known file)
    (path : Runs.Run (turn php) (Covered php known) (opened file) turns x) :
    (∀ earlier later mid, turns = earlier ++ later → Runs.Run (turn php) (Covered php known) (opened file) earlier mid →
      Kept mid) ↔
    Runs.Run (turn php) (fun x t => Covered php known x t ∧ Keeps x t) (opened file) turns x := by
  have sound : ∀ {turns x}, Runs.Run (turn php) (Covered php known) (opened file) turns x → Sound php known x :=
    fun path => Runs.run_invariant (opened_sound good) (fun sound covered ran =>
      turned_sound sound (turn_turned laws few sound covered ran)) path
  refine Runs.run_exact_within (motive := fun _ x => Kept x) (fun _ => trivial) ?_ ?_ trivial path
  · intro url member
    cases member
  · intro _ x t next reply prior kept covered _ ran
    exact turned_kept (sound prior) kept (turn_turned laws few (sound prior) covered ran)

-- `parse_url` on two URLs.
def twoHosts : Php where
  parseUrl text :=
    if text = "tcp://one:8080" then some ⟨some "tcp",some "one",some 8080⟩
    else if text = "tcp://two:8080" then some ⟨some "tcp",some "two",some 8080⟩
    else none
  isIp _ := false
  isPublicIp _ := false

theorem twoHosts_parts (parsed : twoHosts.parseUrl text = some parts) (complete : hostPort parts = some (host,port)) :
    parts.scheme = some "tcp" ∧ (host = "one" ∨ host = "two") ∧ port = 8080 := by
  simp only [twoHosts] at parsed
  split at parsed
  · cases parsed
    simp only [hostPort,isEmpty] at complete
    cases complete
    exact ⟨rfl,.inl rfl,rfl⟩
  · split at parsed
    · cases parsed
      simp only [hostPort,isEmpty] at complete
      cases complete
      exact ⟨rfl,.inr rfl,rfl⟩
    · cases parsed

theorem twoHosts_laws : UrlLaws twoHosts := by
  constructor
  · intro text parts host port parsed complete
    obtain ⟨scheme,rfl | rfl,rfl⟩ := twoHosts_parts parsed complete
    · rw [scheme]
      decide +kernel
    · rw [scheme]
      decide +kernel
  · intro text parts host port parsed complete
    obtain ⟨scheme,rfl | rfl,rfl⟩ := twoHosts_parts parsed complete
    · rw [scheme]
      decide +kernel
    · rw [scheme]
      decide +kernel

theorem good_nil : Good php known [] := ⟨List.nodup_nil,fun _ => List.not_mem_nil.elim,fun _ => List.not_mem_nil.elim⟩

def announce (rpcUrl : String) : PublishRequest := ⟨rpcUrl,"","website",0,0,false,[]⟩
def silent : Except String Probe := .error "RPC endpoint closed the connection without a response"
def bothUrls : Finset String := {"tcp://one:8080","tcp://two:8080"}

def inTurn : List Turn :=
  [.publish 0 (announce "one:8080") silent 1,.save 0 true,.publish 1 (announce "two:8080") silent 2,.save 1 true]
def crossed : List Turn :=
  [.publish 0 (announce "one:8080") silent 1,.publish 1 (announce "two:8080") silent 2,.save 0 true,.save 1 true]

theorem publications_kept_exact_inTurn : ∃ turns x, Runs.Run (turn twoHosts) (Covered twoHosts bothUrls) (opened []) turns x ∧
    x.pending = ∅ ∧ x.answered = ["tcp://two:8080","tcp://one:8080"] ∧ Kept x := by
  have fed : (Runs.feed (fun x t => if Covered twoHosts bothUrls x t ∧ Keeps x t then turn twoHosts x t else none)
      (opened []) inTurn).map (fun pair => (decide (pair.1.pending = ∅),pair.1.answered)) =
      some (true,["tcp://two:8080","tcp://one:8080"]) := by decide +kernel
  obtain ⟨⟨x,replies⟩,ran,equal⟩ := Option.map_eq_some_iff.mp fed
  simp only [Prod.mk.injEq,decide_eq_true_eq] at equal
  obtain ⟨finished,answered⟩ := equal
  have kept := (Runs.feed_run ran).1.guarded
  have path := kept.weaken fun _ _ both => both.1
  have along := (publications_kept_exact twoHosts_laws (by decide) good_nil path).mpr kept
  exact ⟨_,x,path,finished,answered,along _ [] x (List.append_nil _).symm path⟩

-- Both requests read the empty file, and the second save writes over the first.
theorem crossed_lost : ∃ turns x, Runs.Run (turn twoHosts) (Covered twoHosts bothUrls) (opened []) turns x ∧
    x.pending = ∅ ∧ "tcp://one:8080" ∈ x.answered ∧ "tcp://one:8080" ∉ urls x.file := by
  have fed : (Runs.feed (fun x t => if Covered twoHosts bothUrls x t then turn twoHosts x t else none) (opened [])
      crossed).map (fun pair => (decide (pair.1.pending = ∅),pair.1.answered,urls pair.1.file)) =
      some (true,["tcp://two:8080","tcp://one:8080"],["tcp://two:8080"]) := by decide +kernel
  obtain ⟨⟨x,replies⟩,ran,equal⟩ := Option.map_eq_some_iff.mp fed
  simp only [Prod.mk.injEq,decide_eq_true_eq] at equal
  obtain ⟨finished,answered,file⟩ := equal
  refine ⟨_,x,(Runs.feed_run ran).1.guarded,finished,?_,?_⟩
  · rw [answered]
    decide
  · rw [file]
    decide

end BlindEye.RegistryRaces
