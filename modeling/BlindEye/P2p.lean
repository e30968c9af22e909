import BlindEye.Block

namespace BlindEye

inductive PeerMessage where
  | handshake (version : UInt32) (bestHeight timestamp : UInt64) (listenAddr : String)
  | getPeers
  | peers (addresses : List String)
  | getBlocks (hashes : List Digest)
  | block (block : Block)
  | transaction (transaction : Transaction)
  | getHeaders (fromHeight : UInt64) (count : UInt32)
  | ping (nonce : UInt64)
  | pong (nonce : UInt64)
  deriving DecidableEq

-- The errors that come out of framing, on a connection that does not fail.
inductive P2pError where
  | serialization (text : String)
  | invalidMessage
  | peerDisconnected
  deriving DecidableEq

-- The two functions of bincode that the framing calls.
structure Bincode where
  serialize : PeerMessage → Except String (List UInt8)
  deserialize : List UInt8 → Except String PeerMessage

namespace P2p

-- The answer with what is left of the stream. `read_exact` at the end of the
-- stream takes what there is.
def readMessage (bincode : Bincode) (stream : List UInt8) : Except P2pError PeerMessage × List UInt8 :=
  if stream.length < 4 then (.error .peerDisconnected,[])
  else
    let len := LittleEndian.fromBytes (stream.take 4).reverse
    let stream := stream.drop 4
    if len > 10000000 then (.error .invalidMessage,stream)
    else if stream.length < len then (.error .peerDisconnected,[])
    else match bincode.deserialize (stream.take len) with
      | .error e => (.error (.serialization e),stream.drop len)
      | .ok msg => (.ok msg,stream.drop len)

-- The bytes that are written. The length is cast to u32.
def writeMessage (bincode : Bincode) (msg : PeerMessage) : Except P2pError (List UInt8) :=
  match bincode.serialize msg with
  | .error e => .error (.serialization e)
  | .ok serialized => .ok ((u32Bytes (UInt32.ofNat serialized.length)).reverse ++ serialized)

-- Repeated reads, up to the first error.
def readMessages (bincode : Bincode) : Nat → List UInt8 → Except P2pError (List PeerMessage) × List UInt8
  | 0,stream => (.ok [],stream)
  | count + 1,stream =>
    match readMessage bincode stream with
    | (.error e,stream) => (.error e,stream)
    | (.ok msg,stream) =>
      match readMessages bincode count stream with
      | (.error e,stream) => (.error e,stream)
      | (.ok others,stream) => (.ok (msg :: others),stream)

end P2p

end BlindEye
