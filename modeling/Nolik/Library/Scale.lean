import Nolik.Library.Bytes

/-! SCALE codecs. A codec may refuse to encode (a collection longer than `u32::MAX` aborts the
encoder) and reads a prefix of its input. The round trip is a field, so every codec built here
carries it. A canonical codec reads nothing but what it writes. -/
namespace Scale
open ByteString

structure Codec (α : Type) where
  encode : α → Option Bytes
  decode : Bytes → Option (α × Bytes)
  decode_encode : ∀ {x : α} {bytes : Bytes} (rest : Bytes),
    encode x = some bytes → decode (bytes ++ rest) = some (x, rest)

/-- `u128` and the other fixed-width integers: `width` little-endian bytes. -/
def readLe (width : Nat) (bytes : Bytes) : Option (Nat × Bytes) :=
  if width ≤ bytes.length then some (leValue (bytes.take width), bytes.drop width) else none

theorem readLe_leBytes {width value : Nat} (bound : value < 256 ^ width) (rest : Bytes) :
    readLe width (leBytes width value ++ rest) = some (value, rest) := by
  have front : (leBytes width value ++ rest).take width = leBytes width value := by
    rw [List.take_append_of_le_length (leBytes_length width value).ge,
      List.take_of_length_le (leBytes_length width value).le]
  have back : (leBytes width value ++ rest).drop width = rest := by
    rw [List.drop_append_of_le_length (leBytes_length width value).ge,
      List.drop_of_length_le (leBytes_length width value).le, List.nil_append]
  rw [readLe, if_pos (by simp), front, back, leValue_leBytes bound]

/-- `Compact<u32>`. The two low bits of the first byte say how many follow. A
length above `u32::MAX` has no encoding. -/
def compactEncode (n : Nat) : Option Bytes :=
  if n < 2 ^ 6 then some (leBytes 1 (n * 4))
  else if n < 2 ^ 14 then some (leBytes 2 (n * 4 + 1))
  else if n < 2 ^ 30 then some (leBytes 4 (n * 4 + 2))
  else if n < 2 ^ 32 then some (3 :: leBytes 4 n)
  else none

/-- Only the shortest form of a length is accepted. -/
def compactDecode : Bytes → Option (Nat × Bytes)
  | [] => none
  | first :: rest =>
      if first.toNat % 4 = 0 then some (first.toNat / 4, rest)
      else if first.toNat % 4 = 1 then
        (readLe 2 (first :: rest)).bind fun (x, rest) =>
          if 2 ^ 6 ≤ x / 4 then some (x / 4, rest) else none
      else if first.toNat % 4 = 2 then
        (readLe 4 (first :: rest)).bind fun (x, rest) =>
          if 2 ^ 14 ≤ x / 4 then some (x / 4, rest) else none
      else if first.toNat / 4 = 0 then
        (readLe 4 rest).bind fun (x, rest) => if 2 ^ 30 ≤ x then some (x, rest) else none
      else none

theorem readLe_eq_some {width : Nat} {bytes : Bytes} {value : Nat} {rest : Bytes}
    (read : readLe width bytes = some (value, rest)) :
    value < 256 ^ width ∧ bytes = leBytes width value ++ rest := by
  unfold readLe at read
  split_ifs at read with enough
  cases read
  have size : (bytes.take width).length = width := by
    rw [List.length_take, Nat.min_eq_left enough]
  have bound := leValue_lt (bytes.take width)
  have digits := leBytes_leValue (bytes.take width)
  rw [size] at bound digits
  exact ⟨bound, by rw [digits, List.take_append_drop]⟩

theorem compactEncode_ne_nil {n : Nat} {bytes : Bytes} (h : compactEncode n = some bytes) :
    bytes ≠ [] := by
  unfold compactEncode at h
  split_ifs at h <;> cases h <;> exact List.cons_ne_nil _ _

/-- The first byte of a number carries its residue modulo four. -/
theorem leBytes_head_mod (width value : Nat) : ∃ first rest,
    leBytes (width + 1) value = first :: rest ∧ first.toNat % 4 = value % 4 ∧
      first.toNat = value % 256 := by
  have digit : (UInt8.ofNat (value % 256)).toNat = value % 256 := by
    rw [UInt8.toNat_ofNat']
    omega
  exact ⟨_, _, rfl, by rw [digit]; omega, digit⟩

theorem readLe_head_mod {width : Nat} {first : UInt8} {tail : Bytes} {value : Nat} {rest : Bytes}
    (read : readLe (width + 1) (first :: tail) = some (value, rest)) :
    first.toNat % 4 = value % 4 := by
  obtain ⟨-, split⟩ := readLe_eq_some read
  obtain ⟨lead, later, shape, residue, -⟩ := leBytes_head_mod width value
  rw [shape] at split
  rw [(List.cons_eq_cons.mp split).1, residue]

theorem compactDecode_compactEncode {n : Nat} {bytes : Bytes} (rest : Bytes)
    (h : compactEncode n = some bytes) : compactDecode (bytes ++ rest) = some (n, rest) := by
  unfold compactEncode at h
  split_ifs at h with one two four big
  · cases h
    obtain ⟨first, tail, shape, residue, value⟩ := leBytes_head_mod 0 (n * 4)
    have empty : tail = [] := by
      have size := congrArg List.length shape
      simpa using size.symm
    rw [shape, empty, List.cons_append, List.nil_append, compactDecode, if_pos (by omega)]
    congr 2
    omega
  · cases h
    have read := readLe_leBytes (show n * 4 + 1 < 256 ^ 2 by omega) rest
    obtain ⟨first, tail, shape, residue, -⟩ := leBytes_head_mod 1 (n * 4 + 1)
    rw [shape, List.cons_append] at read ⊢
    rw [compactDecode, if_neg (by omega), if_pos (by omega), read]
    simp only [Option.bind_some, show (n * 4 + 1) / 4 = n by omega, if_pos (not_lt.mp one)]
  · cases h
    have read := readLe_leBytes (show n * 4 + 2 < 256 ^ 4 by omega) rest
    obtain ⟨first, tail, shape, residue, -⟩ := leBytes_head_mod 3 (n * 4 + 2)
    rw [shape, List.cons_append] at read ⊢
    rw [compactDecode, if_neg (by omega), if_neg (by omega), if_pos (by omega), read]
    simp only [Option.bind_some, show (n * 4 + 2) / 4 = n by omega, if_pos (not_lt.mp two)]
  · cases h
    have read := readLe_leBytes (show n < 256 ^ 4 by omega) rest
    rw [List.cons_append, compactDecode, if_neg (by decide), if_neg (by decide),
      if_neg (by decide), if_pos (by decide), read]
    simp only [Option.bind_some, if_pos (not_lt.mp four)]

/-- The four forms do not overlap, so a length is read in the form it is written in. -/
theorem compactEncode_of_compactDecode {bytes : Bytes} {n : Nat} {rest : Bytes}
    (read : compactDecode bytes = some (n, rest)) :
    ∃ enc, compactEncode n = some enc ∧ bytes = enc ++ rest := by
  cases bytes with
  | nil => cases read
  | cons first tail =>
      have digit := first.toNat_lt
      rw [compactDecode] at read
      split_ifs at read with one two four big
      · cases read
        have small : first.toNat / 4 < 2 ^ 6 := by omega
        have whole : first.toNat / 4 * 4 % 256 = first.toNat := by omega
        refine ⟨leBytes 1 (first.toNat / 4 * 4), if_pos small, ?_⟩
        rw [leBytes, leBytes, whole, UInt8.ofNat_toNat]
        rfl
      · obtain ⟨⟨x, tail'⟩, fixed, kept⟩ := Option.bind_eq_some_iff.mp read
        obtain ⟨bound, split⟩ := readLe_eq_some fixed
        have residue := readLe_head_mod fixed
        dsimp only at kept
        split_ifs at kept with least
        cases kept
        have whole : x / 4 * 4 + 1 = x := by omega
        refine ⟨leBytes 2 x, ?_, split⟩
        rw [compactEncode, if_neg (by omega), if_pos (by omega), whole]
      · obtain ⟨⟨x, tail'⟩, fixed, kept⟩ := Option.bind_eq_some_iff.mp read
        obtain ⟨bound, split⟩ := readLe_eq_some fixed
        have residue := readLe_head_mod fixed
        dsimp only at kept
        split_ifs at kept with least
        cases kept
        have whole : x / 4 * 4 + 2 = x := by omega
        refine ⟨leBytes 4 x, ?_, split⟩
        rw [compactEncode, if_neg (by omega), if_neg (by omega), if_pos (by omega), whole]
      · obtain ⟨⟨x, tail'⟩, fixed, kept⟩ := Option.bind_eq_some_iff.mp read
        obtain ⟨bound, split⟩ := readLe_eq_some fixed
        dsimp only at kept
        split_ifs at kept with least
        cases kept
        have lead : first = 3 := by
          apply UInt8.toNat.inj
          change first.toNat = 3
          omega
        refine ⟨3 :: leBytes 4 n, ?_, by rw [lead, split, List.cons_append]⟩
        rw [compactEncode, if_neg (by omega), if_neg (by omega), if_neg (by omega),
          if_pos (by omega)]

/-- A byte stands for itself. -/
def byte : Codec UInt8 where
  encode b := some [b]
  decode
    | [] => none
    | b :: rest => some (b, rest)
  decode_encode := by
    intro b bytes rest h
    cases h
    rfl

/-- `[u8; n]`: the bytes as they are. -/
def Codec.array (n : Nat) : Codec (ByteArr n) where
  encode a := some a.toList
  decode bytes := (tryInto n (bytes.take n)).map fun a => (a, bytes.drop n)
  decode_encode := by
    intro a bytes rest h
    cases h
    have size := a.toList_length
    rw [List.take_append_of_le_length size.ge, List.take_of_length_le size.le, tryInto_toList,
      List.drop_append_of_le_length size.ge, List.drop_of_length_le size.le]
    rfl

/-- The fields of a struct follow each other in declaration order. -/
def Codec.pair {α β : Type} (a : Codec α) (b : Codec β) : Codec (α × β) where
  encode x := do
    let first ← a.encode x.1
    let second ← b.encode x.2
    some (first ++ second)
  decode bytes := do
    let (x, rest) ← a.decode bytes
    let (y, rest) ← b.decode rest
    some ((x, y), rest)
  decode_encode := by
    intro x bytes rest h
    simp only [Option.bind_eq_bind, Option.bind_eq_some_iff] at h
    obtain ⟨first, ha, second, hb, joined⟩ := h
    cases joined
    rw [List.append_assoc]
    simp only [Option.bind_eq_bind, a.decode_encode (second ++ rest) ha,
      b.decode_encode rest hb, Option.bind_some]

/-- A variant of an enum: its index, then its fields. -/
def Codec.variant {α : Type} (index : UInt8) (a : Codec α) : Codec α where
  encode x := (a.encode x).map (index :: ·)
  decode
    | [] => none
    | b :: rest => if b = index then a.decode rest else none
  decode_encode := by
    intro x bytes rest h
    obtain ⟨enc, encoded, rfl⟩ := Option.map_eq_some_iff.mp h
    rw [List.cons_append]
    exact (if_pos rfl).trans (a.decode_encode rest encoded)

/-- A struct is coded as the tuple of its fields. -/
def Codec.iso {α β : Type} (a : Codec α) (into : α → β) (fields : β → α)
    (rebuilt : ∀ x, into (fields x) = x) : Codec β where
  encode x := a.encode (fields x)
  decode bytes := (a.decode bytes).map fun (x, rest) => (into x, rest)
  decode_encode := by
    intro x bytes rest h
    simp only [a.decode_encode rest h, Option.map_some, rebuilt]

def encodeItems {α : Type} (a : Codec α) : List α → Option Bytes
  | [] => some []
  | x :: xs => do
      let first ← a.encode x
      let others ← encodeItems a xs
      some (first ++ others)

def decodeItems {α : Type} (a : Codec α) : Nat → Bytes → Option (List α × Bytes)
  | 0, bytes => some ([], bytes)
  | n + 1, bytes => do
      let (x, rest) ← a.decode bytes
      let (xs, rest) ← decodeItems a n rest
      some (x :: xs, rest)

theorem decodeItems_encodeItems {α : Type} (a : Codec α) {xs : List α} {bytes : Bytes}
    (rest : Bytes) (h : encodeItems a xs = some bytes) :
    decodeItems a xs.length (bytes ++ rest) = some (xs, rest) := by
  induction xs generalizing bytes with
  | nil => cases h; rfl
  | cons x xs ih =>
      simp only [encodeItems, Option.bind_eq_bind, Option.bind_eq_some_iff] at h
      obtain ⟨first, hx, others, hxs, joined⟩ := h
      cases joined
      rw [List.append_assoc]
      simp only [List.length_cons, decodeItems, Option.bind_eq_bind,
        a.decode_encode (others ++ rest) hx, ih hxs, Option.bind_some]

/-- `Vec<T>`: the compact length, then the items. -/
def Codec.vec {α : Type} (a : Codec α) : Codec (List α) where
  encode xs := do
    let size ← compactEncode xs.length
    let items ← encodeItems a xs
    some (size ++ items)
  decode bytes := do
    let (n, rest) ← compactDecode bytes
    decodeItems a n rest
  decode_encode := by
    intro xs bytes rest h
    simp only [Option.bind_eq_bind, Option.bind_eq_some_iff] at h
    obtain ⟨size, hn, items, hxs, joined⟩ := h
    cases joined
    rw [List.append_assoc]
    simp only [Option.bind_eq_bind, compactDecode_compactEncode (items ++ rest) hn,
      Option.bind_some, decodeItems_encodeItems a rest hxs]

/-- What is read was written by the encoder. -/
structure Codec.Canonical {α : Type} (c : Codec α) : Prop where
  written : ∀ {bytes x rest}, c.decode bytes = some (x, rest) →
    ∃ enc, c.encode x = some enc ∧ bytes = enc ++ rest

theorem Codec.decode_eq_some_iff {α : Type} {c : Codec α} (canonical : c.Canonical)
    {bytes : Bytes} {x : α} {rest : Bytes} :
    c.decode bytes = some (x, rest) ↔ ∃ enc, c.encode x = some enc ∧ bytes = enc ++ rest := by
  constructor
  · exact canonical.written
  · rintro ⟨enc, encoded, rfl⟩
    exact c.decode_encode rest encoded

theorem byte_canonical : byte.Canonical := by
  constructor
  intro bytes x rest read
  cases bytes with
  | nil => cases read
  | cons b bytes =>
      cases read
      exact ⟨[x], rfl, rfl⟩

theorem Codec.array_canonical (n : Nat) : (array n).Canonical := by
  constructor
  intro bytes a rest read
  obtain ⟨a', taken, same⟩ := Option.map_eq_some_iff.mp read
  cases same
  refine ⟨a.toList, rfl, ?_⟩
  rw [← tryInto_eq_some.mp taken, List.take_append_drop]

theorem Codec.pair_canonical {α β : Type} {a : Codec α} {b : Codec β} (first : a.Canonical)
    (second : b.Canonical) : (a.pair b).Canonical := by
  constructor
  intro bytes x rest read
  obtain ⟨⟨y, middle⟩, readFirst, later⟩ := Option.bind_eq_some_iff.mp read
  obtain ⟨⟨z, rest'⟩, readSecond, same⟩ := Option.bind_eq_some_iff.mp later
  cases same
  obtain ⟨enc, encoded, rfl⟩ := first.written readFirst
  obtain ⟨enc', encoded', rfl⟩ := second.written readSecond
  refine ⟨enc ++ enc', ?_, (List.append_assoc _ _ _).symm⟩
  simp only [pair, encoded, encoded', Option.bind_eq_bind, Option.bind_some]

theorem Codec.variant_canonical {α : Type} (index : UInt8) {a : Codec α}
    (canonical : a.Canonical) : (a.variant index).Canonical := by
  constructor
  intro bytes x rest read
  cases bytes with
  | nil => cases read
  | cons b bytes =>
      simp only [variant] at read
      split_ifs at read with same
      obtain ⟨enc, encoded, rfl⟩ := canonical.written read
      refine ⟨index :: enc, ?_, by rw [same, List.cons_append]⟩
      exact congrArg (Option.map (index :: ·)) encoded

theorem Codec.iso_canonical {α β : Type} {a : Codec α} {into : α → β} {fields : β → α}
    {rebuilt : ∀ x, into (fields x) = x} (canonical : a.Canonical)
    (kept : ∀ y, fields (into y) = y) : (a.iso into fields rebuilt).Canonical := by
  constructor
  intro bytes x rest read
  obtain ⟨⟨y, rest'⟩, inner, same⟩ := Option.map_eq_some_iff.mp read
  cases same
  obtain ⟨enc, encoded, split⟩ := canonical.written inner
  refine ⟨enc, ?_, split⟩
  change a.encode (fields (into y)) = some enc
  rw [kept, encoded]

theorem encodeItems_of_decodeItems {α : Type} {a : Codec α} (canonical : a.Canonical) {n : Nat}
    {bytes : Bytes} {xs : List α} {rest : Bytes} (read : decodeItems a n bytes = some (xs, rest)) :
    xs.length = n ∧ ∃ enc, encodeItems a xs = some enc ∧ bytes = enc ++ rest := by
  induction n generalizing bytes xs with
  | zero =>
      cases read
      exact ⟨rfl, [], rfl, rfl⟩
  | succ n ih =>
      obtain ⟨⟨x, middle⟩, first, later⟩ := Option.bind_eq_some_iff.mp read
      obtain ⟨⟨others, rest'⟩, remaining, same⟩ := Option.bind_eq_some_iff.mp later
      cases same
      obtain ⟨enc, encoded, rfl⟩ := canonical.written first
      obtain ⟨size, enc', encoded', rfl⟩ := ih remaining
      refine ⟨congrArg Nat.succ size, enc ++ enc', ?_, (List.append_assoc _ _ _).symm⟩
      simp only [encodeItems, encoded, encoded', Option.bind_eq_bind, Option.bind_some]

theorem Codec.vec_canonical {α : Type} {a : Codec α} (canonical : a.Canonical) :
    a.vec.Canonical := by
  constructor
  intro bytes xs rest read
  obtain ⟨⟨n, middle⟩, sized, items⟩ := Option.bind_eq_some_iff.mp read
  obtain ⟨size, encodedSize, rfl⟩ := compactEncode_of_compactDecode sized
  obtain ⟨rfl, enc, encoded, rfl⟩ := encodeItems_of_decodeItems canonical items
  refine ⟨size ++ enc, ?_, (List.append_assoc _ _ _).symm⟩
  simp only [vec, encodedSize, encoded, Option.bind_eq_bind, Option.bind_some]

theorem encodeItems_map {α β : Type} {a : Codec α} {b : Codec β} {f : α → β}
    (alike : ∀ x, b.encode (f x) = a.encode x) (xs : List α) :
    encodeItems b (xs.map f) = encodeItems a xs := by
  induction xs with
  | nil => rfl
  | cons x xs ih => rw [List.map_cons, encodeItems, encodeItems, alike, ih]

theorem Codec.vec_encode_map {α β : Type} {a : Codec α} {b : Codec β} {f : α → β}
    (alike : ∀ x, b.encode (f x) = a.encode x) (xs : List α) :
    b.vec.encode (xs.map f) = a.vec.encode xs := by
  simp only [vec, encodeItems_map alike, List.length_map]

theorem compactEncode_total_iff {n : Nat} :
    (∃ bytes, compactEncode n = some bytes) ↔ n < 2 ^ 32 := by
  unfold compactEncode
  split_ifs with one two four big
  · exact ⟨fun _ => by omega, fun _ => ⟨_, rfl⟩⟩
  · exact ⟨fun _ => by omega, fun _ => ⟨_, rfl⟩⟩
  · exact ⟨fun _ => by omega, fun _ => ⟨_, rfl⟩⟩
  · exact ⟨fun _ => big, fun _ => ⟨_, rfl⟩⟩
  · exact ⟨fun ⟨_, h⟩ => (by cases h), fun h => absurd h big⟩

theorem Codec.pair_encode_total_iff {α β : Type} (a : Codec α) (b : Codec β) {x : α × β} :
    (∃ bytes, (a.pair b).encode x = some bytes) ↔
      (∃ bytes, a.encode x.1 = some bytes) ∧ ∃ bytes, b.encode x.2 = some bytes := by
  simp only [Codec.pair, Option.bind_eq_bind, Option.bind_eq_some_iff]
  constructor
  · rintro ⟨bytes, first, ha, second, hb, -⟩
    exact ⟨⟨first, ha⟩, second, hb⟩
  · rintro ⟨⟨first, ha⟩, second, hb⟩
    exact ⟨_, first, ha, second, hb, rfl⟩

theorem encodeItems_total_iff {α : Type} (a : Codec α) {xs : List α} :
    (∃ bytes, encodeItems a xs = some bytes) ↔ ∀ x ∈ xs, ∃ bytes, a.encode x = some bytes := by
  induction xs with
  | nil => exact ⟨fun _ x member => (by cases member), fun _ => ⟨[], rfl⟩⟩
  | cons x xs ih =>
      rw [List.forall_mem_cons, ← ih]
      simp only [encodeItems, Option.bind_eq_bind, Option.bind_eq_some_iff]
      constructor
      · rintro ⟨bytes, first, hx, others, hxs, -⟩
        exact ⟨⟨first, hx⟩, others, hxs⟩
      · rintro ⟨⟨first, hx⟩, others, hxs⟩
        exact ⟨_, first, hx, others, hxs, rfl⟩

theorem Codec.vec_encode_total_iff {α : Type} (a : Codec α) {xs : List α} :
    (∃ bytes, a.vec.encode xs = some bytes) ↔
      xs.length < 2 ^ 32 ∧ ∀ x ∈ xs, ∃ bytes, a.encode x = some bytes := by
  rw [← compactEncode_total_iff, ← encodeItems_total_iff]
  simp only [Codec.vec, Option.bind_eq_bind, Option.bind_eq_some_iff]
  constructor
  · rintro ⟨bytes, size, hn, items, hxs, -⟩
    exact ⟨⟨size, hn⟩, items, hxs⟩
  · rintro ⟨⟨size, hn⟩, items, hxs⟩
    exact ⟨_, size, hn, items, hxs, rfl⟩

/-- A vector never encodes to the empty string: its length is always written. -/
theorem Codec.vec_encode_ne_nil {α : Type} (a : Codec α) {xs : List α} {bytes : Bytes}
    (h : a.vec.encode xs = some bytes) : bytes ≠ [] := by
  simp only [Codec.vec, Option.bind_eq_bind, Option.bind_eq_some_iff] at h
  obtain ⟨size, hn, items, -, joined⟩ := h
  cases joined
  exact List.append_ne_nil_of_left_ne_nil (compactEncode_ne_nil hn) items

def compactSize (n : Nat) : Nat :=
  if n < 2 ^ 6 then 1 else if n < 2 ^ 14 then 2 else if n < 2 ^ 30 then 4 else 5

theorem compactEncode_length {n : Nat} {bytes : Bytes} (h : compactEncode n = some bytes) :
    bytes.length = compactSize n := by
  unfold compactEncode at h
  unfold compactSize
  split_ifs at h with one two four big
  · cases h
    rw [if_pos one, leBytes_length]
  · cases h
    rw [if_neg one, if_pos two, leBytes_length]
  · cases h
    rw [if_neg one, if_neg two, if_pos four, leBytes_length]
  · cases h
    rw [if_neg one, if_neg two, if_neg four, List.length_cons, leBytes_length]

/-- The value alone decides the length of its encoding. -/
structure Codec.Sized {α : Type} (c : Codec α) (size : α → Nat) : Prop where
  length : ∀ {x enc}, c.encode x = some enc → enc.length = size x

theorem byte_sized : byte.Sized fun _ => 1 := by
  constructor
  intro b enc h
  cases h
  rfl

theorem Codec.array_sized (n : Nat) : (array n).Sized fun _ => n := by
  constructor
  intro a enc h
  cases h
  exact a.toList_length

theorem Codec.pair_sized {α β : Type} {a : Codec α} {b : Codec β} {size : α → Nat}
    {size' : β → Nat} (first : a.Sized size) (second : b.Sized size') :
    (a.pair b).Sized fun x => size x.1 + size' x.2 := by
  constructor
  intro x enc h
  simp only [pair, Option.bind_eq_bind, Option.bind_eq_some_iff] at h
  obtain ⟨left, ha, right, hb, joined⟩ := h
  cases joined
  rw [List.length_append, first.length ha, second.length hb]

theorem Codec.iso_sized {α β : Type} {a : Codec α} {into : α → β} {fields : β → α}
    {rebuilt : ∀ x, into (fields x) = x} {size : α → Nat} (sized : a.Sized size) :
    (a.iso into fields rebuilt).Sized fun x => size (fields x) :=
  ⟨fun h => sized.length h⟩

theorem encodeItems_length {α : Type} {a : Codec α} {size : α → Nat} (sized : a.Sized size)
    {xs : List α} {enc : Bytes} (h : encodeItems a xs = some enc) :
    enc.length = (xs.map size).sum := by
  induction xs generalizing enc with
  | nil => cases h; rfl
  | cons x xs ih =>
      simp only [encodeItems, Option.bind_eq_bind, Option.bind_eq_some_iff] at h
      obtain ⟨first, hx, others, hxs, joined⟩ := h
      cases joined
      rw [List.length_append, sized.length hx, ih hxs, List.map_cons, List.sum_cons]

theorem Codec.vec_sized {α : Type} {a : Codec α} {size : α → Nat} (sized : a.Sized size) :
    a.vec.Sized fun xs => compactSize xs.length + (xs.map size).sum := by
  constructor
  intro xs enc h
  simp only [vec, Option.bind_eq_bind, Option.bind_eq_some_iff] at h
  obtain ⟨count, hn, items, hxs, joined⟩ := h
  cases joined
  rw [List.length_append, compactEncode_length hn, encodeItems_length sized hxs]

end Scale
