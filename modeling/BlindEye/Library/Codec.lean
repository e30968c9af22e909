import BlindEye.Library.LittleEndian

-- Formats that say themselves where a value ends. `canonical` makes every value
-- have one spelling, so no shorter list of bytes reads as the same value.
structure Codec (α : Type) where
  write : α → List UInt8
  read : List UInt8 → Option (α × List UInt8)
  Fits : α → Prop
  roundtrip : ∀ a rest, Fits a → read (write a ++ rest) = some (a,rest)
  canonical : ∀ bytes a rest, read bytes = some (a,rest) → bytes = write a ++ rest

namespace Codec

variable {α β : Type}

def number (count : Nat) : Codec Nat where
  write n := LittleEndian.toBytes count n
  read bytes := if bytes.length < count then none else some (LittleEndian.fromBytes (bytes.take count),bytes.drop count)
  Fits n := n < 256^count
  roundtrip := by
    intro n rest fits
    simp [LittleEndian.fromBytes_toBytes fits]
  canonical := by
    intro bytes n rest read
    split at read
    · cases read
    · rename_i enough
      cases read
      have length : (bytes.take count).length = count := by
        rw [List.length_take]
        omega
      have spelled := LittleEndian.toBytes_fromBytes (bytes.take count)
      rw [length] at spelled
      rw [spelled,List.take_append_drop]

def fixed (count : Nat) : Codec {bytes : List UInt8 // bytes.length = count} where
  write value := value.val
  read bytes :=
    if enough : (bytes.take count).length = count then some (⟨bytes.take count,enough⟩,bytes.drop count) else none
  Fits _ := True
  roundtrip := by
    intro value rest _
    obtain ⟨bytes,rfl⟩ := value
    simp
  canonical := by
    intro bytes value rest read
    split at read
    · cases read
      exact (List.take_append_drop count bytes).symm
    · cases read

def pair (A : Codec α) (B : Codec β) : Codec (α × β) where
  write value := A.write value.1 ++ B.write value.2
  read bytes := (A.read bytes).bind fun first => (B.read first.2).map fun second => ((first.1,second.1),second.2)
  Fits value := A.Fits value.1 ∧ B.Fits value.2
  roundtrip := by
    intro value rest fits
    rw [List.append_assoc,A.roundtrip _ _ fits.1]
    simp only [Option.bind_some,B.roundtrip _ _ fits.2,Option.map_some]
  canonical := by
    intro bytes value rest read
    obtain ⟨⟨a,middle⟩,first,later⟩ := Option.bind_eq_some_iff.mp read
    obtain ⟨⟨b,last⟩,second,equal⟩ := Option.map_eq_some_iff.mp later
    cases equal
    have tail : middle = B.write b ++ last := B.canonical _ _ _ second
    rw [A.canonical _ _ _ first,tail,← List.append_assoc]

-- The values of another type, of which some spellings may mean nothing.
def refine (A : Codec α) (there : α → Option β) (back : β → α) (inverse : ∀ b, there (back b) = some b)
    (only : ∀ a b, there a = some b → back b = a) : Codec β where
  write value := A.write (back value)
  read bytes := (A.read bytes).bind fun first => (there first.1).map fun value => (value,first.2)
  Fits value := A.Fits (back value)
  roundtrip := by
    intro value rest fits
    rw [A.roundtrip _ _ fits]
    simp only [Option.bind_some,inverse,Option.map_some]
  canonical := by
    intro bytes value rest read
    obtain ⟨⟨a,left⟩,first,later⟩ := Option.bind_eq_some_iff.mp read
    obtain ⟨b,meaning,equal⟩ := Option.map_eq_some_iff.mp later
    cases equal
    rw [only _ _ meaning]
    exact A.canonical _ _ _ first

def readMany (A : Codec α) : Nat → List UInt8 → Option (List α × List UInt8)
  | 0,bytes => some ([],bytes)
  | count + 1,bytes => (A.read bytes).bind fun first =>
    (readMany A count first.2).map fun others => (first.1 :: others.1,others.2)

theorem readMany_write (A : Codec α) (values : List α) (rest : List UInt8) (fits : ∀ value ∈ values, A.Fits value) :
    A.readMany values.length (values.flatMap A.write ++ rest) = some (values,rest) := by
  induction values with
  | nil => rfl
  | cons value values ih =>
    have later := ih fun other member => fits other (List.mem_cons_of_mem _ member)
    rw [List.length_cons,List.flatMap_cons,List.append_assoc,readMany,A.roundtrip _ _ (fits value List.mem_cons_self)]
    simp only [Option.bind_some,later,Option.map_some]

theorem readMany_canonical (A : Codec α) (read : A.readMany count bytes = some (values,rest)) :
    values.length = count ∧ bytes = values.flatMap A.write ++ rest := by
  induction count generalizing bytes values with
  | zero =>
    cases read
    exact ⟨rfl,rfl⟩
  | succ count ih =>
    obtain ⟨⟨value,middle⟩,first,later⟩ := Option.bind_eq_some_iff.mp read
    obtain ⟨⟨others,last⟩,second,equal⟩ := Option.map_eq_some_iff.mp later
    cases equal
    obtain ⟨length,whole⟩ := ih second
    have tail : middle = others.flatMap A.write ++ last := whole
    refine ⟨congrArg (· + 1) length,?_⟩
    rw [A.canonical _ _ _ first,tail,← List.append_assoc]
    rfl

def readCounted (width : Nat) (A : Codec α) (bytes : List UInt8) : Option (List α × List UInt8) :=
  ((number width).read bytes).bind fun first => A.readMany first.1 first.2

theorem readCounted_write (A : Codec α) (width : Nat) (values : List α) (rest : List UInt8)
    (short : values.length < 256^width) (fits : ∀ value ∈ values, A.Fits value) :
    A.readCounted width ((number width).write values.length ++ values.flatMap A.write ++ rest) = some (values,rest) := by
  rw [readCounted,List.append_assoc,(number width).roundtrip _ _ short]
  exact readMany_write A values rest fits

theorem readCounted_canonical (A : Codec α) (read : A.readCounted width bytes = some (values,rest)) :
    bytes = (number width).write values.length ++ values.flatMap A.write ++ rest := by
  obtain ⟨⟨count,middle⟩,first,later⟩ := Option.bind_eq_some_iff.mp read
  obtain ⟨length,whole⟩ := readMany_canonical A later
  have tail : middle = values.flatMap A.write ++ rest := whole
  have equal : count = values.length := length.symm
  rw [(number width).canonical _ _ _ first,tail,equal,List.append_assoc]

-- A count in `width` bytes and as many values.
def counted (width : Nat) (A : Codec α) : Codec (List α) where
  write values := (number width).write values.length ++ values.flatMap A.write
  read := A.readCounted width
  Fits values := values.length < 256^width ∧ ∀ value ∈ values, A.Fits value
  roundtrip values rest fits := A.readCounted_write width values rest fits.1 fits.2
  canonical _ _ _ := A.readCounted_canonical

-- A count in eight bytes and as many values.
def many (A : Codec α) : Codec (List α) where
  write values := (number 8).write values.length ++ values.flatMap A.write
  read bytes := ((number 8).read bytes).bind fun first => A.readMany first.1 first.2
  Fits values := values.length < 2^64 ∧ ∀ value ∈ values, A.Fits value
  roundtrip := by
    intro values rest fits
    have short : values.length < 256^8 := by
      have below := fits.1
      omega
    exact A.readCounted_write 8 values rest short fits.2
  canonical _ _ _ := A.readCounted_canonical

-- The number of a variant in four bytes and the variant's own value.
def variants {Payload : Fin n → Type} (few : n ≤ 2^32) (A : ∀ i, Codec (Payload i)) : Codec (Sigma Payload) where
  write value := (number 4).write value.1 ++ (A value.1).write value.2
  read bytes := ((number 4).read bytes).bind fun first =>
    if known : first.1 < n then ((A ⟨first.1,known⟩).read first.2).map fun second => (⟨_,second.1⟩,second.2)
    else none
  Fits value := (A value.1).Fits value.2
  roundtrip := by
    intro value rest fits
    obtain ⟨i,payload⟩ := value
    have small : (number 4).Fits i := Nat.lt_of_lt_of_le i.isLt few
    rw [List.append_assoc,(number 4).roundtrip _ _ small,Option.bind_some,dif_pos i.isLt]
    rw [(A i).roundtrip _ _ fits,Option.map_some]
  canonical := by
    intro bytes value rest read
    obtain ⟨⟨index,middle⟩,first,later⟩ := Option.bind_eq_some_iff.mp read
    split at later
    · obtain ⟨⟨payload,last⟩,second,equal⟩ := Option.map_eq_some_iff.mp later
      cases equal
      have tail : middle = (A _).write payload ++ last := (A _).canonical _ _ _ second
      rw [(number 4).canonical _ _ _ first,tail,← List.append_assoc]
    · cases later

@[simp] theorem number_length (count n : Nat) : ((number count).write n).length = count :=
  LittleEndian.toBytes_length count n

@[simp] theorem fixed_length (value : {bytes : List UInt8 // bytes.length = count}) :
    ((fixed count).write value).length = count := value.property

@[simp] theorem pair_length (A : Codec α) (B : Codec β) (value : α × β) :
    ((pair A B).write value).length = (A.write value.1).length + (B.write value.2).length := List.length_append

@[simp] theorem many_length (A : Codec α) (values : List α) :
    ((many A).write values).length = 8 + (values.map fun value => (A.write value).length).sum := by
  simp [many,List.length_flatMap]

@[simp] theorem refine_length (A : Codec α) (there : α → Option β) (back : β → α) (inverse only) (value : β) :
    ((refine A there back inverse only).write value).length = (A.write (back value)).length := rfl

@[simp] theorem variants_length {Payload : Fin n → Type} (few : n ≤ 2^32) (A : ∀ i, Codec (Payload i))
    (value : Sigma Payload) : ((variants few A).write value).length = 4 + ((A value.1).write value.2).length := by
  simp [variants]

-- Two values whose spellings begin the same bytes are one value.
theorem write_unique (A : Codec α) {a b : α} {rest rest' : List UInt8} (fitsA : A.Fits a) (fitsB : A.Fits b)
    (equal : A.write a ++ rest = A.write b ++ rest') : a = b ∧ rest = rest' := by
  have one := A.roundtrip a rest fitsA
  rw [equal,A.roundtrip b rest' fitsB] at one
  cases one
  exact ⟨rfl,rfl⟩

theorem write_exact (A : Codec α) {a b : α} (fitsA : A.Fits a) (fitsB : A.Fits b) : A.write a = A.write b ↔ a = b := by
  refine ⟨fun equal => ?_,congrArg A.write⟩
  have same : A.write a ++ [] = A.write b ++ [] := by simp [equal]
  exact (A.write_unique fitsA fitsB same).1

-- No strict beginning of a spelling reads as the same value.
theorem shorter_differs (A : Codec α) (short : List UInt8) (a : α) (rest : List UInt8)
    (read : A.read short = some (a,rest)) : (A.write a).length ≤ short.length := by
  rw [A.canonical _ _ _ read,List.length_append]
  exact Nat.le_add_right _ _

-- Every value that is read is one that can be written.
def Certain (A : Codec α) : Prop := ∀ bytes a rest, A.read bytes = some (a,rest) → A.Fits a

theorem number_certain (count : Nat) : (number count).Certain := by
  intro bytes n rest read
  change (if bytes.length < count then none else _) = _ at read
  split at read
  · cases read
  · rename_i enough
    cases read
    have length : (bytes.take count).length = count := by
      rw [List.length_take]
      omega
    have below := LittleEndian.fromBytes_lt (bytes.take count)
    rwa [length] at below

theorem fixed_certain (count : Nat) : (fixed count).Certain := fun _ _ _ _ => trivial

theorem Certain.pair {A : Codec α} {B : Codec β} (one : A.Certain) (two : B.Certain) : (Codec.pair A B).Certain := by
  intro bytes value rest read
  obtain ⟨⟨a,middle⟩,first,later⟩ := Option.bind_eq_some_iff.mp read
  obtain ⟨⟨b,last⟩,second,equal⟩ := Option.map_eq_some_iff.mp later
  cases equal
  exact ⟨one _ _ _ first,two _ _ _ second⟩

theorem Certain.refine {A : Codec α} {there : α → Option β} {back : β → α} {inverse only} (certain : A.Certain) :
    (Codec.refine A there back inverse only).Certain := by
  intro bytes value rest read
  obtain ⟨⟨a,left⟩,first,later⟩ := Option.bind_eq_some_iff.mp read
  obtain ⟨b,meaning,equal⟩ := Option.map_eq_some_iff.mp later
  cases equal
  change A.Fits (back value)
  rw [only _ _ meaning]
  exact certain _ _ _ first

theorem readMany_certain {A : Codec α} (certain : A.Certain) (read : A.readMany count bytes = some (values,rest)) :
    ∀ value ∈ values, A.Fits value := by
  induction count generalizing bytes values with
  | zero =>
    cases read
    nofun
  | succ count ih =>
    obtain ⟨⟨value,middle⟩,first,later⟩ := Option.bind_eq_some_iff.mp read
    obtain ⟨⟨others,last⟩,second,equal⟩ := Option.map_eq_some_iff.mp later
    cases equal
    intro other member
    rcases List.mem_cons.mp member with rfl | member
    · exact certain _ _ _ first
    · exact ih second other member

theorem Certain.many {A : Codec α} (certain : A.Certain) : (Codec.many A).Certain := by
  intro bytes values rest read
  obtain ⟨⟨count,middle⟩,first,later⟩ := Option.bind_eq_some_iff.mp read
  have short : count < 256^8 := number_certain 8 _ _ _ first
  have length := (readMany_canonical A later).1
  refine ⟨?_,readMany_certain certain later⟩
  rw [length]
  omega

-- A spelling that is cut anywhere reads as nothing.
theorem Certain.torn {A : Codec α} (certain : A.Certain) (fits : A.Fits a) (whole : A.write a = front ++ back)
    (cut : back ≠ []) : A.read front = none := by
  cases read : A.read front with
  | none => rfl
  | some result =>
    obtain ⟨b,left⟩ := result
    have spelled := A.canonical _ _ _ read
    have equal : A.write a ++ [] = A.write b ++ (left ++ back) := by
      rw [List.append_nil,whole,spelled,List.append_assoc]
    have left := (A.write_unique fits (certain _ _ _ read) equal).2
    exact absurd (List.append_eq_nil_iff.mp left.symm).2 cut

end Codec
