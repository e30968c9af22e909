import BlindEye.SocketAddr

-- What the Display of an address writes, the parser reads back.
namespace BlindEye.AddrText
open AddrParser AddrDisplay

variable {b n size : Nat} {rest : List Char} {groups : List Nat}

theorem toDigit_digitChar (small : d < b) (hex : b ≤ 16) : toDigit b (Nat.digitChar d) = some d := by
  have sixteen : ∀ d < 16, toDigit 16 (Nat.digitChar d) = some d := by decide
  have wide := sixteen d (by omega)
  rw [toDigit,Option.filter_eq_some_iff] at wide ⊢
  exact ⟨wide.1,decide_eq_true small⟩

theorem toDigits_member (base : 1 < b) : ∀ n, ∀ ch ∈ Nat.toDigits b n, ∃ d < b, ch = Nat.digitChar d := by
  intro n
  induction n using Nat.strong_induction_on with
  | h n ih =>
    rcases Nat.lt_or_ge n b with small | large
    · rw [Nat.toDigits_of_lt_base small]
      intro ch member
      exact ⟨n,small,List.mem_singleton.mp member⟩
    · rw [Nat.toDigits_of_base_le base large]
      intro ch member
      rcases List.mem_append.mp member with front | last
      · exact ih (n / b) (Nat.div_lt_self (by omega) base) ch front
      · exact ⟨n % b,Nat.mod_lt _ (by omega),List.mem_singleton.mp last⟩

theorem toDigits_read (base : 1 < b) (hex : b ≤ 16) : ∀ n,
    ((Nat.toDigits b n).filterMap (toDigit b)).foldl (fun value digit => value * b + digit) 0 = n := by
  intro n
  induction n using Nat.strong_induction_on with
  | h n ih =>
    rcases Nat.lt_or_ge n b with small | large
    · simp [Nat.toDigits_of_lt_base small,toDigit_digitChar small hex]
    · have below : n % b < b := Nat.mod_lt _ (by omega)
      have earlier := ih (n / b) (Nat.div_lt_self (by omega) base)
      rw [Nat.toDigits_of_base_le base large,List.filterMap_append,List.foldl_append,earlier]
      simp only [List.filterMap_cons,toDigit_digitChar below hex,List.filterMap_nil,List.foldl_cons,List.foldl_nil]
      exact Nat.div_add_mod' n b

theorem toDigits_first (base : 1 < b) : ∀ n, 0 < n → (Nat.toDigits b n).head? ≠ some '0' := by
  intro n
  induction n using Nat.strong_induction_on with
  | h n ih =>
    intro positive
    rcases Nat.lt_or_ge n b with small | large
    · rw [Nat.toDigits_of_lt_base small]
      simp only [List.head?_cons,ne_eq,Option.some.injEq,Nat.digitChar_eq_zero]
      omega
    · have earlier := ih (n / b) (Nat.div_lt_self (by omega) base) (Nat.div_pos large (by omega))
      rw [Nat.toDigits_of_base_le base large,List.head?_append_of_ne_nil _ Nat.toDigits_ne_nil]
      exact earlier

-- No digit stands at the head of what is left.
def Ends (b : Nat) (rest : List Char) : Prop := ∀ ch ∈ rest.head?, toDigit b ch = none

theorem digits_taken (base : 1 < b) (hex : b ≤ 16) (ends : Ends b rest) (n : Nat) :
    (Nat.toDigits b n ++ rest).takeWhile (fun ch => (toDigit b ch).isSome) = Nat.toDigits b n := by
  have inside : ∀ ch ∈ Nat.toDigits b n, (toDigit b ch).isSome = true := by
    intro ch member
    obtain ⟨d,small,rfl⟩ := toDigits_member base n ch member
    rw [toDigit_digitChar small hex]
    rfl
  have outside : rest.takeWhile (fun ch => (toDigit b ch).isSome) = [] := by
    cases rest with
    | nil => rfl
    | cons ch later =>
      have none := ends ch rfl
      simp [none]
  rw [List.takeWhile_append_of_pos inside,outside,List.append_nil]

theorem readNumber_digits (base : 1 < b) (hex : b ≤ 16) (ends : Ends b rest) (fits : n < size)
    (short : ∀ limit ∈ maxDigits, (Nat.toDigits b n).length ≤ limit) (allowZeroPrefix : Bool) :
    readNumber b maxDigits allowZeroPrefix size (Nat.toDigits b n ++ rest) = some (n,rest) := by
  have within : maxDigits.any (· < (Nat.toDigits b n).length) = false := by
    cases maxDigits with
    | none => rfl
    | some limit => simpa using short limit rfl
  have first : ¬ ((Nat.toDigits b n).head? = some '0' ∧ 1 < (Nat.toDigits b n).length) := by
    intro ⟨zero,long⟩
    rcases Nat.eq_zero_or_pos n with rfl | positive
    · rw [Nat.toDigits_zero] at long
      simp at long
    · exact toDigits_first base n positive zero
  simp only [readNumber,digits_taken base hex ends,toDigits_read base hex,within,Nat.toDigits_ne_nil,Bool.false_eq_true,
    Nat.not_le.mpr fits,or_self,if_false,first,and_false,List.drop_left]

theorem readNumber_none (ends : Ends b rest) : readNumber b maxDigits allowZeroPrefix size rest = none := by
  have outside : rest.takeWhile (fun ch => (toDigit b ch).isSome) = [] := by
    cases rest with
    | nil => rfl
    | cons ch later =>
      have none := ends ch rfl
      simp [none]
  simp [readNumber,outside]

theorem ends_cons (other : toDigit b ch = none) : Ends b (ch :: rest) := by
  intro head member
  cases member
  exact other

theorem octet_read (small : n < 256) (ends : Ends 10 rest) :
    readNumber 10 (some 3) false 256 (Nat.toDigits 10 n ++ rest) = some (n,rest) := by
  apply readNumber_digits (by decide) (by decide) ends small
  intro limit member
  cases member
  exact (Nat.length_toDigits_le_iff (by decide) (by decide)).mpr (by omega)

theorem octets_value (n : Nat) :
    ((n / 256^3 % 256 * 256 + n / 256^2 % 256) * 256 + n / 256^1 % 256) * 256 + n / 256^0 % 256 = n % 2^32 := by
  norm_num
  omega

theorem ipv4_read (ends : Ends 10 rest) (ip : BitVec 32) : readIpv4Addr (ipv4Text ip ++ rest) = some (ip,rest) := by
  have octet : ∀ i, ip.toNat / 256^i % 256 < 256 := fun i => Nat.mod_lt _ (by decide)
  have dotted : ∀ rest, Ends 10 ('.' :: rest) := fun _ => ends_cons (by decide)
  simp only [readIpv4Addr,ipv4Text,List.append_assoc,List.cons_append,octet_read (octet _) (dotted _),
    octet_read (octet _) ends,readGivenChar,Option.bind_eq_bind,Option.bind_some,if_true,octets_value]
  rw [Nat.mod_eq_of_lt ip.isLt,BitVec.ofNat_toNat,BitVec.setWidth_eq]

-- What may follow a group, and what may follow the last one.
def Breaks (text : List Char) : Prop := ∃ ch later, text = ch :: later ∧ (ch = ']' ∨ ch = '%' ∨ ch = ':')

def Stops (text : List Char) : Prop :=
  ∃ ch later, text = ch :: later ∧ (ch = ']' ∨ ch = '%' ∨ ch = ':' ∧ ∃ last, later = ':' :: last)

theorem Stops.breaks (stops : Stops rest) : Breaks rest := by
  obtain ⟨ch,later,rfl,bracket | percent | ⟨colon,_⟩⟩ := stops
  · exact ⟨ch,later,rfl,.inl bracket⟩
  · exact ⟨ch,later,rfl,.inr (.inl percent)⟩
  · exact ⟨ch,later,rfl,.inr (.inr colon)⟩

theorem Breaks.ends (breaks : Breaks rest) : Ends 16 rest ∧ Ends 10 rest ∧ ∀ ch ∈ rest.head?, ch ≠ '.' := by
  obtain ⟨ch,later,rfl,rfl | rfl | rfl⟩ := breaks
  all_goals
    refine ⟨ends_cons (by decide),ends_cons (by decide),?_⟩
    intro ch member
    cases member
    decide

theorem colonGroups_breaks (breaks : Breaks rest) : ∀ groups, Breaks (colonGroups groups ++ rest) := by
  intro groups
  cases groups with
  | nil => exact breaks
  | cons group later => exact ⟨':',_,rfl,.inr (.inr rfl)⟩

theorem dropWhile_head {test : Char → Bool} {front : List Char} (plain : ∀ ch ∈ front, ch ≠ '.')
    (after : ∀ ch ∈ (rest.dropWhile test).head?, ch ≠ '.') :
    ∀ ch ∈ ((front ++ rest).dropWhile test).head?, ch ≠ '.' := by
  induction front with
  | nil => exact after
  | cons first front ih =>
    rw [List.cons_append,List.dropWhile_cons]
    split
    · exact ih fun ch member => plain ch (List.mem_cons_of_mem _ member)
    · intro ch member
      cases member
      exact plain first List.mem_cons_self

-- A number is what stands before the first character that is no digit.
theorem readNumber_rest (read : readNumber b maxDigits allowZeroPrefix size text = some (n,rest)) :
    rest = text.dropWhile fun ch => (toDigit b ch).isSome := by
  simp only [readNumber] at read
  split at read
  · cases read
  · split at read
    · cases read
    · cases read
      have whole := text.takeWhile_append_dropWhile (p := fun ch => (toDigit b ch).isSome)
      have dropped := congrArg (List.drop (text.takeWhile fun ch => (toDigit b ch).isSome).length) whole
      rw [List.drop_left] at dropped
      exact dropped.symm

-- A group is not the first number of an IPv4 address.
theorem group_plain (breaks : Breaks rest) (n : Nat) : readIpv4Addr (Nat.toDigits 16 n ++ rest) = none := by
  have digits : ∀ ch ∈ Nat.toDigits 16 n, ch ≠ '.' := by
    have all : ∀ d < 16, Nat.digitChar d ≠ '.' := by decide
    intro ch member
    obtain ⟨d,small,rfl⟩ := toDigits_member (by decide) n ch member
    exact all d small
  have after : rest.dropWhile (fun ch => (toDigit 10 ch).isSome) = rest := by
    have ends := breaks.ends.2.1
    obtain ⟨ch,later,rfl,_⟩ := breaks
    have none := ends ch rfl
    simp [none]
  rw [readIpv4Addr]
  cases read : readNumber 10 (some 3) false 256 (Nat.toDigits 16 n ++ rest) with
  | none => rfl
  | some pair =>
    obtain ⟨value,left⟩ := pair
    have plain : ∀ ch ∈ left.head?, ch ≠ '.' := by
      rw [readNumber_rest read]
      apply dropWhile_head digits
      rw [after]
      exact breaks.ends.2.2
    have dot : readGivenChar '.' left = none := by
      cases left with
      | nil => rfl
      | cons ch later => exact if_neg (plain ch rfl)
    simp [dot]

theorem group_read (small : n < 2^16) (breaks : Breaks rest) :
    readNumber 16 (some 4) true (2^16) (Nat.toDigits 16 n ++ rest) = some (n,rest) := by
  apply readNumber_digits (by decide) (by decide) breaks.ends.1 small
  intro limit member
  cases member
  exact (Nat.length_toDigits_le_iff (by decide) (by decide)).mpr (by omega)

theorem readGroups_stops (stops : Stops rest) (limit : Nat) (first : Bool) :
    readGroups limit first rest = ([],false,rest) := by
  cases limit with
  | zero => rfl
  | succ limit =>
    have plain : ∀ text, Ends 10 text → readIpv4Addr text = none := by
      intro text ends
      rw [readIpv4Addr,readNumber_none ends]
      rfl
    have ends := stops.breaks.ends
    have start : ((if first then some rest else readGivenChar ':' rest).bind readIpv4Addr = none) ∧
        (if first then some rest else readGivenChar ':' rest).bind (readNumber 16 (some 4) true (2^16)) = none := by
      cases first with
      | true => exact ⟨plain rest ends.2.1,readNumber_none ends.1⟩
      | false =>
        obtain ⟨ch,later,rfl,rfl | rfl | ⟨rfl,last,rfl⟩⟩ := stops
        · exact ⟨rfl,rfl⟩
        · exact ⟨rfl,rfl⟩
        · have noGroup : readNumber 16 (some 4) true (2^16) (':' :: last) = none :=
            readNumber_none (ends_cons (by decide))
          exact ⟨plain _ (ends_cons (by decide)),noGroup⟩
    simp only [readGroups,start,ite_self]

theorem readGroups_group (small : n < 2^16) (breaks : Breaks rest) (limit : Nat) (first : Bool)
    (begins : (if first then some text else readGivenChar ':' text) = some (Nat.toDigits 16 n ++ rest)) :
    readGroups (limit + 1) first text =
      (n :: (readGroups limit false rest).1,(readGroups limit false rest).2) := by
  simp only [readGroups,begins,Option.bind_some,group_plain breaks,group_read small breaks,ite_self]

def Small (groups : List Nat) : Prop := ∀ group ∈ groups, group < 2^16

theorem readGroups_colons (stops : Stops rest) (small : Small groups) (room : groups.length ≤ limit) :
    readGroups limit false (colonGroups groups ++ rest) = (groups,false,rest) := by
  induction groups generalizing limit with
  | nil => exact readGroups_stops stops limit false
  | cons group groups ih =>
    obtain ⟨limit,rfl⟩ : ∃ less, limit = less + 1 := Nat.exists_eq_succ_of_ne_zero (by
      rw [List.length_cons] at room
      omega)
    have later := ih (fun other member => small other (List.mem_cons_of_mem _ member)) (Nat.le_of_succ_le_succ room)
    have begins : (if false then some (colonGroups (group :: groups) ++ rest)
        else readGivenChar ':' (colonGroups (group :: groups) ++ rest)) =
        some (Nat.toDigits 16 group ++ (colonGroups groups ++ rest)) := by
      simp [colonGroups,readGivenChar]
    rw [readGroups_group (small group List.mem_cons_self) (colonGroups_breaks stops.breaks groups) limit false begins,
      later]

theorem readGroups_joined (stops : Stops rest) (small : Small groups) (room : groups.length ≤ limit) :
    readGroups limit true (joined groups ++ rest) = (groups,false,rest) := by
  cases groups with
  | nil => exact readGroups_stops stops limit true
  | cons group groups =>
    obtain ⟨limit,rfl⟩ : ∃ less, limit = less + 1 := Nat.exists_eq_succ_of_ne_zero (by
      rw [List.length_cons] at room
      omega)
    have later := readGroups_colons stops (fun other member => small other (List.mem_cons_of_mem _ member))
      (Nat.le_of_succ_le_succ room)
    have begins : (if true then some (joined (group :: groups) ++ rest)
        else readGivenChar ':' (joined (group :: groups) ++ rest)) =
        some (Nat.toDigits 16 group ++ (colonGroups groups ++ rest)) := by
      simp [joined]
    rw [readGroups_group (small group List.mem_cons_self) (colonGroups_breaks stops.breaks groups) limit true begins,
      later]

theorem groupsOf_length : ∀ count value, (groupsOf count value).length = count := by
  intro count
  induction count with
  | zero => exact fun _ => rfl
  | succ count ih =>
    intro value
    rw [groupsOf,List.length_append,ih]
    rfl

theorem groupsOf_small : ∀ count value, Small (groupsOf count value) := by
  intro count
  induction count with
  | zero => exact fun _ _ member => absurd member List.not_mem_nil
  | succ count ih =>
    intro value group member
    rcases List.mem_append.mp member with front | last
    · exact ih _ group front
    · obtain rfl := List.mem_singleton.mp last
      exact Nat.mod_lt _ (by decide)

theorem groupsOf_value : ∀ count value, value < (2^16)^count →
    (groupsOf count value).foldl (fun value group => value * 2^16 + group) 0 = value := by
  intro count
  induction count with
  | zero =>
    intro value below
    rw [Nat.pow_zero] at below
    exact (Nat.lt_one_iff.mp below).symm
  | succ count ih =>
    intro value below
    have front := ih (value / 2^16) (Nat.div_lt_of_lt_mul (by rwa [Nat.mul_comm,← Nat.pow_succ]))
    rw [groupsOf,List.foldl_append,front]
    exact Nat.div_add_mod' value (2^16)

theorem segments_length (ip : BitVec 128) : (segments ip).length = 8 := groupsOf_length 8 ip.toNat

theorem segments_small (ip : BitVec 128) : Small (segments ip) := groupsOf_small 8 ip.toNat

theorem segments_read (ip : BitVec 128) : fromGroups (segments ip) = ip := by
  rw [fromGroups,segments,groupsOf_value 8 ip.toNat (by have below := ip.isLt; omega),BitVec.ofNat_toNat,
    BitVec.setWidth_eq]

theorem full_read (stops : Stops rest) (small : Small groups) (full : groups.length = 8) :
    readIpv6Addr (joined groups ++ rest) = some (fromGroups groups,rest) := by
  rw [readIpv6Addr,readGroups_joined stops small full.le]
  exact if_pos full

theorem shortened_read (stops : Stops rest) (front : Small before) (back : Small after)
    (zeros : before.length + len + after.length = 8) (many : 1 < len) :
    readIpv6Addr (joined before ++ ':' :: ':' :: (joined after ++ rest)) =
      some (fromGroups (before ++ List.replicate len 0 ++ after),rest) := by
  have colons : Stops (':' :: ':' :: (joined after ++ rest)) := ⟨':',_,rfl,.inr (.inr ⟨rfl,_,rfl⟩)⟩
  have head := readGroups_joined colons front (show before.length ≤ 8 by omega)
  have tail := readGroups_joined stops back (show after.length ≤ 8 - (before.length + 1) by omega)
  have filled : 8 - before.length - after.length = len := by omega
  rw [readIpv6Addr,head]
  simp only [show before.length ≠ 8 by omega,if_false,Bool.false_eq_true,readGivenChar,if_true,Option.bind_eq_bind,
    Option.bind_some,tail,filled]

-- The span covers zeros of the groups.
def Covers (groups : List Nat) (span : Span) : Prop :=
  ∃ before after, groups = before ++ List.replicate span.len 0 ++ after ∧ before.length = span.start

def Trailing (done : List Nat) (span : Span) : Prop :=
  span.len = 0 ∨ ∃ before, done = before ++ List.replicate span.len 0 ∧ before.length = span.start

theorem Trailing.grows (trailing : Trailing done current) :
    ∃ before, done ++ [0] = before ++ List.replicate (current.len + 1) 0 ∧
      before.length = if current.len = 0 then done.length else current.start := by
  rcases trailing with none | ⟨before,rfl,start⟩
  · exact ⟨done,by simp [none],by simp [none]⟩
  · refine ⟨before,by simp [List.replicate_succ'],?_⟩
    split
    · rename_i none
      simp [none]
    · exact start

theorem longestZeros_covers : ∀ (rest done : List Nat) (longest current : Span), groups = done ++ rest →
    Covers groups longest → Trailing done current → Covers groups (longestZeros rest done.length longest current) := by
  intro rest
  induction rest with
  | nil => exact fun _ _ _ _ covers _ => covers
  | cons segment rest ih =>
    intro done longest current whole covers trailing
    have split : groups = (done ++ [segment]) ++ rest := by simp [whole]
    have length : (done ++ [segment]).length = done.length + 1 := by simp
    by_cases zero : segment = 0
    · subst zero
      obtain ⟨before,ends,start⟩ := trailing.grows
      have next : Covers groups ⟨if current.len = 0 then done.length else current.start,current.len + 1⟩ :=
        ⟨before,rest,by rw [split,ends],start⟩
      simp only [longestZeros,if_true,← length]
      apply ih _ _ _ split
      · split
        · exact next
        · exact covers
      · exact .inr ⟨before,ends,start⟩
    · simp only [longestZeros,if_neg zero,← length]
      exact ih _ _ _ split covers (.inl rfl)

theorem segments_split (ip : BitVec 128) :
    segments ip = (segments ip).take 6 ++ [ip.toNat / 2^16 % 2^16,ip.toNat % 2^16] := by
  have front : segments ip = groupsOf 6 (ip.toNat / 2^16 / 2^16) ++ [ip.toNat / 2^16 % 2^16,ip.toNat % 2^16] := by
    simp [segments,groupsOf]
  have length := groupsOf_length 6 (ip.toNat / 2^16 / 2^16)
  rw [front,List.take_left' length]

theorem mapped_read (stops : Stops rest) (mapped : (segments ip).take 6 = [0,0,0,0,0,0xffff]) :
    readIpv6Addr (':' :: ':' :: 'f' :: 'f' :: 'f' :: 'f' :: ':' :: (ipv4Text (BitVec.ofNat 32 ip.toNat) ++ rest)) =
      some (ip,rest) := by
  let v4 := BitVec.ofNat 32 ip.toNat
  have colons : Stops (':' :: ':' :: 'f' :: 'f' :: 'f' :: 'f' :: ':' :: (ipv4Text v4 ++ rest)) :=
    ⟨':',_,rfl,.inr (.inr ⟨rfl,_,rfl⟩)⟩
  have head := readGroups_stops colons 8 true
  have breaks : Breaks (':' :: (ipv4Text v4 ++ rest)) := ⟨':',_,rfl,.inr (.inr rfl)⟩
  have last : readGroups 6 false (':' :: (ipv4Text v4 ++ rest)) =
      ([v4.toNat / 2^16,v4.toNat % 2^16],true,rest) := by
    simp [readGroups,readGivenChar,ipv4_read stops.breaks.ends.2.1 v4]
  have digits : Nat.toDigits 16 0xffff = ['f','f','f','f'] := by decide
  have tail : readGroups 7 true ('f' :: 'f' :: 'f' :: 'f' :: ':' :: (ipv4Text v4 ++ rest)) =
      ([0xffff,v4.toNat / 2^16,v4.toNat % 2^16],true,rest) := by
    rw [readGroups_group (show 0xffff < 2^16 by decide) breaks 6 true (by rw [digits]; rfl),last]
  have low : v4.toNat / 2^16 = ip.toNat / 2^16 % 2^16 ∧ v4.toNat % 2^16 = ip.toNat % 2^16 := by
    rw [BitVec.toNat_ofNat]
    omega
  have whole : [0,0,0,0,0] ++ [0xffff,v4.toNat / 2^16,v4.toNat % 2^16] = segments ip := by
    rw [segments_split,mapped,low.1,low.2]
    rfl
  have value := segments_read ip
  rw [← whole] at value
  rw [readIpv6Addr,head]
  simp only [List.length_nil,show ¬ 0 = 8 by decide,if_false,Bool.false_eq_true,readGivenChar,if_true,
    Option.bind_eq_bind,Option.bind_some,tail]
  exact congrArg (fun ip => some (ip,rest)) value

theorem ipv6_read (stops : Stops rest) (ip : BitVec 128) : readIpv6Addr (ipv6Text ip ++ rest) = some (ip,rest) := by
  simp only [ipv6Text]
  split
  · rename_i mapped
    exact mapped_read stops mapped
  · have start : Covers (segments ip) ⟨0,0⟩ := ⟨[],segments ip,rfl,rfl⟩
    have covers : Covers (segments ip) (longestZeros (segments ip) 0 ⟨0,0⟩ ⟨0,0⟩) :=
      longestZeros_covers (segments ip) [] ⟨0,0⟩ ⟨0,0⟩ rfl start (.inl rfl)
    obtain ⟨before,after,whole,position⟩ := covers
    generalize longestZeros (segments ip) 0 ⟨0,0⟩ ⟨0,0⟩ = zeroes at whole position ⊢
    split
    · rename_i many
      have small := segments_small ip
      have length := segments_length ip
      have value := segments_read ip
      rw [whole] at small length value
      have front : (segments ip).take zeroes.start = before := by
        rw [whole,← position,List.append_assoc,List.take_left]
      have back : (segments ip).drop (zeroes.start + zeroes.len) = after := by
        rw [whole]
        apply List.drop_left'
        simp [position]
      have pieces : before.length + zeroes.len + after.length = 8 := by simpa [Nat.add_assoc] using length
      have smallFront : Small before := fun group member => small group (by simp [member])
      have smallBack : Small after := fun group member => small group (by simp [member])
      rw [front,back,List.append_assoc,List.cons_append,List.cons_append,
        shortened_read stops smallFront smallBack pieces many,value]
    · rw [full_read stops (segments_small ip) (segments_length ip),segments_read]

-- Ports and scopes may have any number of digits.
theorem decimal_read (ends : Ends 10 rest) (fits : n < size) :
    readNumber 10 none true size (Nat.toDigits 10 n ++ rest) = some (n,rest) := by
  apply readNumber_digits (by decide) (by decide) ends fits
  intro limit member
  cases member

theorem port_read (ends : Ends 10 rest) (port : UInt16) : readPort (portText port ++ rest) = some (port,rest) := by
  have number := decimal_read ends port.toNat_lt
  simp [readPort,portText,readGivenChar,number]

theorem scope_read (scopeId : UInt32) (rest : List Char) :
    (readScopeId (scopeText scopeId ++ ']' :: rest)).getD (0,scopeText scopeId ++ ']' :: rest) =
      (scopeId,']' :: rest) := by
  have ends : Ends 10 (']' :: rest) := ends_cons (by decide)
  have number := decimal_read ends scopeId.toNat_lt
  by_cases zero : scopeId = 0
  · simp [zero,scopeText,readScopeId,readGivenChar]
  · simp [zero,scopeText,readScopeId,readGivenChar,number]

theorem scope_stops (scopeId : UInt32) (rest : List Char) : Stops (scopeText scopeId ++ ']' :: rest) := by
  by_cases zero : scopeId = 0
  · exact ⟨']',rest,by simp [zero,scopeText],.inl rfl⟩
  · exact ⟨'%',Nat.toDigits 10 scopeId.toNat ++ ']' :: rest,by simp [zero,scopeText],.inr (.inl rfl)⟩

-- The address without its flow label, which no text shows.
def unlabelled : SocketAddr → SocketAddr
  | .v4 ip port => .v4 ip port
  | .v6 ip port _ scopeId => .v6 ip port 0 scopeId

@[simp] theorem unlabelled_ip (addr : SocketAddr) : (unlabelled addr).ip = addr.ip := by
  cases addr with
  | v4 | v6 => rfl

@[simp] theorem unlabelled_port (addr : SocketAddr) : (unlabelled addr).port = addr.port := by
  cases addr with
  | v4 | v6 => rfl

@[simp] theorem unlabelled_twice (addr : SocketAddr) : unlabelled (unlabelled addr) = unlabelled addr := by
  cases addr with
  | v4 | v6 => rfl

-- No text has a flow label either.
theorem parse_unlabelled {text : String} {addr : SocketAddr} (parsed : SocketAddr.parse text = some addr) : unlabelled addr = addr := by
  cases addr with
  | v4 ip port => rfl
  | v6 ip port flowinfo scopeId =>
    simp only [SocketAddr.parse] at parsed
    split at parsed
    · rename_i read found
      cases parsed
      rcases Option.or_eq_some_iff.mp found with plain | ⟨_,bracketed⟩
      · simp [AddrParser.readSocketAddrV4,Option.bind_eq_some_iff] at plain
      · simp only [AddrParser.readSocketAddrV6,Option.bind_eq_bind,Option.bind_eq_some_iff,Option.some.injEq,
          Prod.mk.injEq,SocketAddr.v6.injEq] at bracketed
        obtain ⟨_,_,_,_,_,_,_,_,⟨_,_,rfl,_⟩,_⟩ := bracketed
        rfl
    · cases parsed

theorem parse_toString (addr : SocketAddr) : SocketAddr.parse addr.toString = some (unlabelled addr) := by
  have nothing : Ends 10 [] := by simp [Ends]
  have plain : ∀ port, readPort (portText port) = some (port,[]) := by
    intro port
    have read := port_read nothing port
    rwa [List.append_nil] at read
  rw [SocketAddr.parse,SocketAddr.toString,String.toList_ofList]
  cases addr with
  | v4 ip port =>
    have ends : Ends 10 (portText port) := ends_cons (by decide)
    simp [SocketAddr.text,readSocketAddrV4,ipv4_read ends,plain,unlabelled]
  | v6 ip port flowinfo scopeId =>
    have bracket : ∀ text, readSocketAddrV4 ('[' :: text) = none := by
      intro text
      have ends : Ends 10 ('[' :: text) := ends_cons (by decide)
      simp [readSocketAddrV4,readIpv4Addr,readNumber_none ends]
    have inside := ipv6_read (scope_stops scopeId (portText port)) ip
    have scope := scope_read scopeId (portText port)
    simp [SocketAddr.text,bracket,readSocketAddrV6,readGivenChar,inside,scope,plain,unlabelled]

end BlindEye.AddrText
