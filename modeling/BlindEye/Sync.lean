import BlindEye.Node

namespace BlindEye.Sync

-- `saturating_sub`, `min(100)` and the cast to u32.
def requestCount (peerBestHeight localHeight : UInt64) : UInt32 :=
  UInt32.ofNat (min (peerBestHeight.toNat - localHeight.toNat) 100)

-- The answers to the single blocks are not looked at.
def importBlocks (c : Crates) (s : Blockchain) : List Block → Option Blockchain
  | [] => some s
  | block :: rest => (s.addBlock c block).bind fun (next,_) => importBlocks c next rest

-- What `synchronize_blocks` does with one peer, over a connection that loses no
-- message.
def round (c : Crates) (peer s : Blockchain) : Option Blockchain :=
  if peer.currentHeight > s.currentHeight then
    importBlocks c s (Node.blocksFromHeight peer (s.currentHeight + 1) (requestCount peer.currentHeight s.currentHeight))
  else some s

def rounds (c : Crates) (peer : Blockchain) : Nat → Blockchain → Option Blockchain
  | 0,s => some s
  | n + 1,s => (round c peer s).bind (rounds c peer n)

end BlindEye.Sync
