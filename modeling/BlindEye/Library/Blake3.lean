import BlindEye.Library.LittleEndian

namespace Blake3

-- BLAKE3 on inputs of at most one chunk (1024 bytes), words as naturals below
-- 2^32. The four rows of the state are mixed lane by lane, so the column step
-- and the diagonal step are one function around a rotation of the rows.
structure Quad where
  p : Nat
  q : Nat
  r : Nat
  s : Nat

def Quad.zip (f : Nat → Nat → Nat) (x y : Quad) : Quad := ⟨f x.p y.p,f x.q y.q,f x.r y.r,f x.s y.s⟩
def Quad.map (f : Nat → Nat) (x : Quad) : Quad := ⟨f x.p,f x.q,f x.r,f x.s⟩
def Quad.rotate (x : Quad) : Quad := ⟨x.q,x.r,x.s,x.p⟩
def Quad.toList (x : Quad) : List Nat := [x.p,x.q,x.r,x.s]

def add (x y : Nat) : Nat := (x + y) % 4294967296
def rotr (n x : Nat) : Nat := (x >>> n) ||| ((x <<< (32 - n)) % 4294967296)

def ivLow : Quad := ⟨0x6A09E667,0xBB67AE85,0x3C6EF372,0xA54FF53A⟩
def ivHigh : Quad := ⟨0x510E527F,0x9B05688C,0x1F83D9AB,0x5BE0CD19⟩

structure Rows where
  a : Quad
  b : Quad
  c : Quad
  d : Quad

def mix (rows : Rows) (x y : Quad) : Rows :=
  let a := .zip add (.zip add rows.a rows.b) x
  let d := (Quad.zip Nat.xor rows.d a).map (rotr 16)
  let c := .zip add rows.c d
  let b := (Quad.zip Nat.xor rows.b c).map (rotr 12)
  let a := .zip add (.zip add a b) y
  let d := (Quad.zip Nat.xor d a).map (rotr 8)
  let c := .zip add c d
  let b := (Quad.zip Nat.xor b c).map (rotr 7)
  ⟨a,b,c,d⟩

def round (rows : Rows) : List Nat → Rows
  | [m0,m1,m2,m3,m4,m5,m6,m7,m8,m9,m10,m11,m12,m13,m14,m15] =>
    let ⟨a,b,c,d⟩ := mix rows ⟨m0,m2,m4,m6⟩ ⟨m1,m3,m5,m7⟩
    let ⟨a,b,c,d⟩ := mix ⟨a,b.rotate,c.rotate.rotate,d.rotate.rotate.rotate⟩ ⟨m8,m10,m12,m14⟩ ⟨m9,m11,m13,m15⟩
    ⟨a,b.rotate.rotate.rotate,c.rotate.rotate,d.rotate⟩
  | _ => rows

def permute : List Nat → List Nat
  | [m0,m1,m2,m3,m4,m5,m6,m7,m8,m9,m10,m11,m12,m13,m14,m15] =>
    [m2,m6,m3,m10,m7,m0,m4,m13,m1,m11,m12,m5,m9,m14,m15,m8]
  | words => words

def rounds : Nat → Rows → List Nat → Rows
  | 0,rows,_ => rows
  | n+1,rows,words => rounds n (round rows words) (permute words)

-- Chaining values are kept as two quads. The chunk counter is 0 throughout.
def compress (low high : Quad) (words : List Nat) (length flags : Nat) : Quad × Quad :=
  let rows := rounds 7 ⟨low,high,ivLow,⟨0,0,length,flags⟩⟩ words
  (.zip Nat.xor rows.a rows.c,.zip Nat.xor rows.b rows.d)

def words : List UInt8 → List Nat
  | a :: b :: c :: d :: rest => LittleEndian.fromBytes [a,b,c,d] :: words rest
  | _ => []

def blockWords (block : List UInt8) : List Nat := words (block ++ List.replicate (64 - block.length) 0)

-- `start` is CHUNK_START (1) at the first block and 0 later; the last block
-- adds CHUNK_END (2) and ROOT (8).
def chunk : Nat → Quad × Quad → Nat → List UInt8 → Quad × Quad
  | 0,chaining,_,_ => chaining
  | fuel+1,(low,high),start,input =>
    if input.length ≤ 64 then compress low high (blockWords input) input.length (start + 10)
    else chunk fuel (compress low high (blockWords (input.take 64)) 64 start) 0 (input.drop 64)

def hash (input : List UInt8) : List UInt8 :=
  let (low,high) := chunk (input.length + 1) (ivLow,ivHigh) 1 input
  (low.toList ++ high.toList).flatMap (LittleEndian.toBytes 4)

theorem hash_length (input : List UInt8) : (hash input).length = 32 := by
  simp [hash,Quad.toList]

example : hash [] = [0xaf,0x13,0x49,0xb9,0xf5,0xf9,0xa1,0xa6,0xa0,0x40,0x4d,0xea,0x36,0xdc,0xc9,0x49,
    0x9b,0xcb,0x25,0xc9,0xad,0xc1,0x12,0xb7,0xcc,0x9a,0x93,0xca,0xe4,0x1f,0x32,0x62] := by decide +kernel

end Blake3
