import Nolik.Library.Bytes
import Nolik.Library.Store

/-! Authenticated public-key boxes over primitives that are a parameter. Each law below is one
documented property of them, and results name the laws they use. `clearScheme` satisfies all of
them, so they do not contradict each other; it is not a cipher. -/
namespace Sealing
open ByteString KeyValue

/-- A box key is agreed from one party's public and the other's secret key. -/
structure BoxScheme (SK PK N K : Type) where
  publicKey : SK → PK
  new : PK → SK → K
  encrypt : K → N → Bytes → Option Bytes
  decrypt : K → N → Bytes → Option Bytes

variable {SK PK N K : Type}

/-- What lets two parties talk. Nothing is said about anybody else. -/
structure BoxScheme.Lawful (box : BoxScheme SK PK N K) : Prop where
  agree : ∀ a b, box.new (box.publicKey a) b = box.new (box.publicKey b) a
  open_seal : ∀ {k n m c}, box.encrypt k n m = some c → box.decrypt k n c = some m

/-- The box of one plaintext stays closed to one other box key. -/
def BoxScheme.Confined (box : BoxScheme SK PK N K) (k : K) (n : N) (m : Bytes) (k' : K) : Prop :=
  k' ≠ k → ∀ c, box.encrypt k n m = some c → box.decrypt k' n c = none

/-- All boxes stay closed. Where there are more keys than short ciphertexts no scheme does this
for every plaintext, so results about single boxes ask for `Confined` alone. -/
def BoxScheme.KeyBound (box : BoxScheme SK PK N K) : Prop :=
  ∀ k n m k', box.Confined k n m k'

def BoxScheme.SealsAll (box : BoxScheme SK PK N K) : Prop :=
  ∀ k n m, ∃ c, box.encrypt k n m = some c

def BoxScheme.NonceBound (box : BoxScheme SK PK N K) : Prop :=
  ∀ {k k' n n' m c}, box.encrypt k n m = some c → n' ≠ n → box.decrypt k' n' c = none

/-- The authenticator precedes the encrypted bytes, so no ciphertext is empty. -/
def BoxScheme.SealsNonempty (box : BoxScheme SK PK N K) : Prop :=
  ∀ {k n m c}, box.encrypt k n m = some c → c ≠ []

/-- A ciphertext is longer than its plaintext by so many bytes at most. -/
def BoxScheme.ExpandsAtMost (box : BoxScheme SK PK N K) (overhead : Nat) : Prop :=
  ∀ {k n m c}, box.encrypt k n m = some c → c.length ≤ m.length + overhead

def BoxScheme.Expands (box : BoxScheme SK PK N K) (overhead : Nat) : Prop :=
  ∀ {k n m c}, box.encrypt k n m = some c → c.length = m.length + overhead

structure SealCall (N K : Type) where
  boxKey : K
  nonce : N
  plaintext : Bytes
  deriving DecidableEq

def SealCall.use (c : SealCall N K) : (K × N) × Bytes := ((c.boxKey, c.nonce), c.plaintext)

/-- No box key and nonce serve two different plaintexts. -/
def NonceRespecting (calls : List (SealCall N K)) : Prop := Functional (calls.map SealCall.use)

instance [DecidableEq N] [DecidableEq K] (calls : List (SealCall N K)) :
    Decidable (NonceRespecting calls) :=
  inferInstanceAs (Decidable (Functional (calls.map SealCall.use)))

theorem nonceRespecting_iff {calls : List (SealCall N K)} :
    NonceRespecting calls ↔ ∀ c ∈ calls, ∀ d ∈ calls,
      c.boxKey = d.boxKey → c.nonce = d.nonce → c.plaintext = d.plaintext := by
  constructor
  · intro respecting c hc d hd key nonce
    exact respecting c.use (List.mem_map_of_mem hc) d.use (List.mem_map_of_mem hd)
      (Prod.ext key nonce)
  · intro respecting p hp q hq same
    obtain ⟨c, hc, rfl⟩ := List.mem_map.mp hp
    obtain ⟨d, hd, rfl⟩ := List.mem_map.mp hq
    obtain ⟨key, nonce⟩ := Prod.ext_iff.mp same
    exact respecting c hc d hd key nonce

/-- Under one box key and nonce only one plaintext may be sealed, however often. -/
theorem nonceRespecting_constant_iff (k : K) (n : N) (plaintexts : List Bytes) :
    NonceRespecting (plaintexts.map (SealCall.mk k n)) ↔
      ∀ x ∈ plaintexts, ∀ y ∈ plaintexts, x = y := by
  rw [nonceRespecting_iff]
  simp only [List.forall_mem_map, forall_const]

/-- Box key and nonce stand in clear before the plaintext. -/
def clearScheme (publicKey : SK → PK) (new : PK → SK → K) (tag : K → N → Bytes) :
    BoxScheme SK PK N K where
  publicKey := publicKey
  new := new
  encrypt k n m := some (tag k n ++ m)
  decrypt k n c := if (tag k n).isPrefixOf c then some (c.drop (tag k n).length) else none

theorem clearScheme_lawful {publicKey : SK → PK} {new : PK → SK → K} {tag : K → N → Bytes}
    (agree : ∀ a b, new (publicKey a) b = new (publicKey b) a) :
    (clearScheme publicKey new tag).Lawful where
  agree := agree
  open_seal := by
    intro k n m c sealed
    cases sealed
    simp only [clearScheme, List.isPrefixOf_iff_prefix, List.prefix_append, ↓reduceIte,
      List.drop_left]

theorem clearScheme_closed {publicKey : SK → PK} {new : PK → SK → K} {tag : K → N → Bytes}
    {k k' : K} {n n' : N} {m c : Bytes} (size : (tag k' n').length = (tag k n).length)
    (other : tag k' n' ≠ tag k n) (sealed : (clearScheme publicKey new tag).encrypt k n m = some c) :
    (clearScheme publicKey new tag).decrypt k' n' c = none := by
  cases sealed
  simp only [clearScheme, List.isPrefixOf_iff_prefix, ite_eq_right_iff, reduceCtorEq, imp_false]
  rintro ⟨rest, split⟩
  exact other (List.append_inj split size).1

theorem clearScheme_keyBound {publicKey : SK → PK} {new : PK → SK → K} {tag : K → N → Bytes}
    (size : ∀ k n k' n', (tag k n).length = (tag k' n').length)
    (injective : ∀ {k n k' n'}, tag k n = tag k' n' → k = k') :
    (clearScheme publicKey new tag).KeyBound := by
  intro k n m k' other c sealed
  exact clearScheme_closed (size k' n k n) (fun same => other (injective same)) sealed

theorem clearScheme_nonceBound {publicKey : SK → PK} {new : PK → SK → K} {tag : K → N → Bytes}
    (size : ∀ k n k' n', (tag k n).length = (tag k' n').length)
    (injective : ∀ {k n k' n'}, tag k n = tag k' n' → n = n') :
    (clearScheme publicKey new tag).NonceBound := by
  intro k k' n n' m c sealed other
  exact clearScheme_closed (size k' n' k n) (fun same => other (injective same)) sealed

theorem clearScheme_sealsAll (publicKey : SK → PK) (new : PK → SK → K) (tag : K → N → Bytes) :
    (clearScheme publicKey new tag).SealsAll := fun _ _ _ => ⟨_, rfl⟩

theorem clearScheme_sealsNonempty {publicKey : SK → PK} {new : PK → SK → K}
    {tag : K → N → Bytes} (nonempty : ∀ k n, tag k n ≠ []) :
    (clearScheme publicKey new tag).SealsNonempty := by
  intro k n m c sealed
  cases sealed
  exact List.append_ne_nil_of_left_ne_nil (nonempty k n) m

theorem clearScheme_expands {publicKey : SK → PK} {new : PK → SK → K} {tag : K → N → Bytes}
    {overhead : Nat} (size : ∀ k n, (tag k n).length = overhead) :
    (clearScheme publicKey new tag).Expands overhead := by
  intro k n m c sealed
  cases sealed
  rw [List.length_append, size, Nat.add_comm]

theorem BoxScheme.Expands.atMost {box : BoxScheme SK PK N K} {overhead : Nat}
    (expands : box.Expands overhead) : box.ExpandsAtMost overhead :=
  fun sealed => (expands sealed).le

end Sealing
