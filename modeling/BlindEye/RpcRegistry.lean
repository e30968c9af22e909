import Mathlib

namespace BlindEye

-- An entry of `rpc_registry_data.json`.
structure Endpoint where
  rpcUrl : String
  ownerAddress : String
  source : String
  bestHeight : Int
  connectedPeers : Int
  remoteEnabled : Bool
  lastSeen : Int
  verified : Bool
  lastError : String
  deriving DecidableEq

-- What `parse_url` makes of a URL. A part that is not there is `none`.
structure UrlParts where
  scheme : Option String
  host : Option String
  port : Option Nat
  deriving DecidableEq

-- The functions of PHP that have no definition here. `isIp` and `isPublicIp`
-- are `filter_var` with and without the flags for private and reserved ranges.
structure Php where
  parseUrl : String → Option UrlParts
  isIp : String → Bool
  isPublicIp : String → Bool

-- The fields that `getinfo` may leave out.
structure Probe where
  bestHeight : Option Int
  connectedPeers : Option Int
  rpcAllowRemote : Option Bool
  deriving DecidableEq

-- A PHP array with the URLs as keys: the entries in the order of the array.
abbrev Registry := List Endpoint

namespace RpcRegistry

def maxEndpoints : Nat := 256
def staleAfterSeconds : Int := 86400

def blank (ch : Char) : Bool := ch ∈ [' ','\t','\n','\r','\x00','\x0B']

def trim (text : String) : String := String.ofList ((text.toList.dropWhile blank).rdropWhile blank)

-- `empty` holds of "" and "0" alike.
def isEmpty (text : String) : Bool := text = "" || text = "0"

-- `empty($parts['host']) || empty($parts['port'])`
def hostPort (parts : UrlParts) : Option (String × Nat) :=
  match parts.host,parts.port with
  | some host,some port => if isEmpty host || port == 0 then none else some (host,port)
  | _,_ => none

def formatUrl (scheme host : String) (port : Nat) : String := scheme ++ "://" ++ host ++ ":" ++ toString port

def canonicalRpcUrl (php : Php) (rpcUrl : String) : Except String String :=
  let trimmed := trim rpcUrl
  if trimmed = "" then .ok ""
  else if ¬ "://".toList <:+: trimmed.toList then .ok ("tcp://" ++ trimmed)
  else
    match php.parseUrl trimmed with
    | none => .error "rpc_url must include a host and port"
    | some parts =>
      match hostPort parts with
      | none => .error "rpc_url must include a host and port"
      | some (host,port) => .ok (formatUrl (parts.scheme.getD "tcp") host port)

def hostNeedsPublicRewrite (php : Php) (host : String) : Bool :=
  let lower := (trim host).map Char.toLower
  if lower = "" ∨ lower = "localhost" then true
  else if ¬ php.isIp lower then false
  else ¬ php.isPublicIp lower

-- `candidates` are the addresses in the headers of the request, in order.
def normalizeRegistryPublishUrl (php : Php) (candidates : List String) (rpcUrl : String) : Except String String := do
  let canonical ← canonicalRpcUrl php rpcUrl
  match php.parseUrl canonical with
  | none => return canonical
  | some parts =>
    match hostPort parts with
    | none => return canonical
    | some (host,port) =>
      if ¬ hostNeedsPublicRewrite php host then return canonical
      else match candidates.find? php.isPublicIp with
      | none => return canonical
      | some publicIp => return formatUrl (parts.scheme.getD "tcp") publicIp port

-- `$registry[$entry['rpc_url']] = $entry`: in place where the key is there.
def assign (registry : Registry) (entry : Endpoint) : Registry :=
  if registry.any fun old => decide (old.rpcUrl = entry.rpcUrl) then
    registry.map fun old => if old.rpcUrl = entry.rpcUrl then entry else old
  else registry ++ [entry]

-- `uasort` is stable, and so is this sort.
def byHeight (registry : Registry) : Registry :=
  registry.insertionSort fun left right => decide (right.bestHeight ≤ left.bestHeight)

-- `file` is what the stored JSON decodes to, `[]` where there is no readable file.
def loadRegistry (php : Php) (file : List Endpoint) : Except String Registry := do
  let registry ← file.foldlM (fun registry entry =>
    if isEmpty entry.rpcUrl then .ok registry
    else (canonicalRpcUrl php entry.rpcUrl).map fun rpcUrl => assign registry { entry with rpcUrl }) []
  return byHeight registry

def upsertRegistryEntry (registry : Registry) (entry : Endpoint) : Registry := byHeight (assign registry entry)

-- The loop body of `live_registry_status`; `none` is the `unset`.
def refreshed (now : Int) (probe : String → Except String Probe) (entry : Endpoint) : Option Endpoint :=
  match probe entry.rpcUrl with
  | .ok probe => some { entry with
      bestHeight := probe.bestHeight.getD 0
      connectedPeers := probe.connectedPeers.getD 0
      remoteEnabled := probe.rpcAllowRemote.getD false
      lastSeen := now
      verified := true
      lastError := "" }
  | .error text =>
    if entry.lastSeen + staleAfterSeconds < now then none
    else some { entry with verified := false, lastError := text }

def liveRegistryStatus (now : Int) (probe : String → Except String Probe) (registry : Registry) : Registry :=
  byHeight (registry.filterMap (refreshed now probe))

-- What the file holds after `save_registry`.
def saveRegistry (registry : Registry) : List Endpoint := registry.take maxEndpoints

-- The payload of a publish request, with its defaults filled in.
structure PublishRequest where
  rpcUrl : String
  ownerAddress : String
  source : String
  bestHeight : Int
  connectedPeers : Int
  remoteEnabled : Bool
  candidates : List String

-- The entry of a publish request. The endpoint is probed before the registry is
-- read, so the answer of the probe is part of what the request brings.
def publishEntry (php : Php) (request : PublishRequest) (probe : Except String Probe) (now : Int) :
    Except String Endpoint := do
  if trim request.rpcUrl = "" then .error "rpc_url is required"
  else
    let rpcUrl ← normalizeRegistryPublishUrl php request.candidates (trim request.rpcUrl)
    let rpcUrl ← canonicalRpcUrl php rpcUrl
    match probe with
    | .ok probe => return {
        rpcUrl, ownerAddress := trim request.ownerAddress, source := trim request.source
        bestHeight := probe.bestHeight.getD request.bestHeight
        connectedPeers := probe.connectedPeers.getD request.connectedPeers
        remoteEnabled := probe.rpcAllowRemote.getD request.remoteEnabled
        lastSeen := now, verified := true, lastError := "" }
    | .error text => return {
        rpcUrl, ownerAddress := trim request.ownerAddress, source := trim request.source
        bestHeight := request.bestHeight, connectedPeers := request.connectedPeers
        remoteEnabled := request.remoteEnabled, lastSeen := now, verified := false, lastError := text }

-- A request between its load and its save: what it read, what it will write,
-- and the URL that it publishes, if it publishes one.
structure PendingSave where
  loaded : List String
  registry : Registry
  published : Option String
  deriving DecidableEq

-- The file, the requests in progress and the URLs whose publish answered ok.
structure Site where
  file : List Endpoint
  pending : Finmap fun _ : Nat => PendingSave
  answered : List String
  deriving DecidableEq

inductive Turn where
  | publish (id : Nat) (request : PublishRequest) (probe : Except String Probe) (now : Int)
  | status (id : Nat) (probe : String → Except String Probe) (now : Int)
  | save (id : Nat) (written : Bool)

inductive Reply where
  | loading
  | published (rpcUrl : String)
  | listed (endpoints : Registry)
  | failed (text : String)
  deriving DecidableEq

def urls (registry : Registry) : List String := registry.map Endpoint.rpcUrl

-- One step of one request: its load with what it computes from it, or its save.
-- The JSON may fail to encode and the file may fail to be written.
def turn (php : Php) (x : Site) : Turn → Option (Site × Reply)
  | .publish id request probe now =>
    if id ∈ x.pending then none
    else match publishEntry php request probe now with
    | .error text => some (x,.failed text)
    | .ok entry =>
      match loadRegistry php x.file with
      | .error text => some (x,.failed text)
      | .ok registry =>
        let pending := x.pending.insert id ⟨urls x.file,upsertRegistryEntry registry entry,some entry.rpcUrl⟩
        some ({ x with pending },.loading)
  | .status id probe now =>
    if id ∈ x.pending then none
    else match loadRegistry php x.file with
    | .error text => some (x,.failed text)
    | .ok registry =>
      let pending := x.pending.insert id ⟨urls x.file,liveRegistryStatus now probe registry,none⟩
      some ({ x with pending },.loading)
  | .save id written =>
    match x.pending.lookup id with
    | none => none
    | some request =>
      let pending := x.pending.erase id
      if ¬ written then some ({ x with pending },.failed "Unable to write registry file")
      else
        let file := saveRegistry request.registry
        match request.published with
        | some rpcUrl => some (⟨file,pending,rpcUrl :: x.answered⟩,.published rpcUrl)
        | none => some (⟨file,pending,x.answered⟩,.listed request.registry)

end RpcRegistry

end BlindEye
