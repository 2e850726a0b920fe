import Nolik.Library.Bytes
import Nolik.Library.Effects
import Nolik.Library.Store

/-! Memory that is handed out as C strings and taken back. A string is taken back with the
length found at that time, so it has to be as long as when it was handed out. Blocks are kept
apart; a write past the end of one is a fault. -/
namespace CStrings
open ByteString Effects KeyValue

abbrev Pointer := Nat

abbrev Heap := Store Pointer Bytes

inductive Fault where
  /-- No block is in use there. -/
  | dangling
  /-- An access past the end of a block. -/
  | overrun
  /-- A block is given back with a size that is not its own. -/
  | layout
  deriving DecidableEq

/-- It finds a place that is not in use, or none. -/
structure Allocator where
  place : Heap → Nat → Option Pointer
  fresh : ∀ {heap size p}, place heap size = some p → heap p = none

def Allocator.first (limit : Nat) : Allocator where
  place heap _ := (List.range limit).find? fun p => (heap p).isNone
  fresh {heap} _ p found := by
    have free := List.find?_some found
    exact Option.isNone_iff_eq_none.mp free

/-- `CString::into_raw` on a new string, given with its final zero. Without room the program
aborts. -/
def intoRaw (a : Allocator) (block : Bytes) (heap : Heap) : Outcome Fault (Pointer × Heap) :=
  match a.place heap block.length with
  | some p => .ok (p, heap.put (p, block))
  | none => .panic

def write (p : Pointer) (bytes : Bytes) (heap : Heap) : Outcome Fault Heap :=
  match heap p with
  | none => .err .dangling
  | some block =>
      if bytes.length ≤ block.length then .ok (heap.put (p, bytes ++ block.drop bytes.length))
      else .err .overrun

def text (block : Bytes) : Bytes := block.takeWhile (· ≠ 0)

def fromRaw (p : Pointer) (heap : Heap) : Outcome Fault Heap :=
  match heap p with
  | none => .err .dangling
  | some block =>
      if 0 ∉ block then .err .overrun
      else if (text block).length + 1 = block.length then .ok (Function.update heap p none)
      else .err .layout

/-- The only zero is the last byte. -/
def Terminated (block : Bytes) : Prop := ∃ s, block = s ++ [0] ∧ 0 ∉ s

def Sound (heap : Heap) : Prop := ∀ p block, heap p = some block → Terminated block

theorem Terminated.zero_mem {block : Bytes} (terminated : Terminated block) : 0 ∈ block := by
  obtain ⟨s, rfl, -⟩ := terminated
  exact List.mem_append_right s List.mem_cons_self

theorem text_append_zero {s rest : Bytes} (whole : 0 ∉ s) : text (s ++ 0 :: rest) = s := by
  unfold text
  rw [List.takeWhile_append_of_pos]
  · exact List.append_nil s
  · intro b member
    rw [decide_eq_true_iff]
    intro zero
    exact whole (zero ▸ member)

/-- A block has the size that is found for it exactly when it is terminated. -/
theorem terminated_iff {block : Bytes} :
    Terminated block ↔ 0 ∈ block ∧ (text block).length + 1 = block.length := by
  constructor
  · intro terminated
    refine ⟨terminated.zero_mem, ?_⟩
    obtain ⟨s, rfl, whole⟩ := terminated
    rw [text_append_zero whole, List.length_append, List.length_singleton]
  · rintro ⟨zero, size⟩
    obtain ⟨s, rest, rfl, whole⟩ := List.eq_append_cons_of_mem zero
    rw [text_append_zero whole, List.length_append, List.length_cons] at size
    have short : rest = [] := List.eq_nil_of_length_eq_zero (by omega)
    exact ⟨s, by rw [short], whole⟩

section Heap
variable {heap : Heap} {p : Pointer} {block : Bytes}

theorem Sound.put (sound : Sound heap) (terminated : Terminated block) :
    Sound (heap.put (p, block)) := by
  intro q other found
  by_cases same : q = p
  · subst same
    rw [Store.put, Function.update_self] at found
    cases found
    exact terminated
  · rw [Store.put, Function.update_of_ne same] at found
    exact sound q other found

theorem Sound.free (sound : Sound heap) : Sound (Function.update heap p none) := by
  intro q other found
  by_cases same : q = p
  · subst same
    rw [Function.update_self] at found
    cases found
  · rw [Function.update_of_ne same] at found
    exact sound q other found

theorem intoRaw_cases (a : Allocator) (block : Bytes) (heap : Heap) :
    intoRaw a block heap = .panic ∨
      ∃ p, heap p = none ∧ intoRaw a block heap = .ok (p, heap.put (p, block)) := by
  unfold intoRaw
  cases place : a.place heap block.length with
  | none => exact .inl rfl
  | some p => exact .inr ⟨p, a.fresh place, rfl⟩

theorem fromRaw_terminated (found : heap p = some block) (terminated : Terminated block) :
    fromRaw p heap = .ok (Function.update heap p none) := by
  obtain ⟨zero, size⟩ := terminated_iff.mp terminated
  simp only [fromRaw, found, zero, not_true_eq_false, if_false, if_pos size]

theorem fromRaw_unterminated (found : heap p = some block) (unterminated : ¬ Terminated block) :
    ∃ e, fromRaw p heap = .err e := by
  rw [terminated_iff, not_and] at unterminated
  by_cases zero : 0 ∈ block
  · refine ⟨.layout, ?_⟩
    simp only [fromRaw, found, zero, not_true_eq_false, if_false, if_neg (unterminated zero)]
  · refine ⟨.overrun, ?_⟩
    simp only [fromRaw, found, zero, not_false_eq_true, if_true]

/-- New zeros are replaced by a string from the front on, if it has the room. -/
theorem write_zeros (n : Nat) (bytes : Bytes) :
    write p bytes (heap.put (p, List.replicate n 0)) =
      if bytes.length ≤ n then
        .ok (heap.put (p, bytes ++ List.replicate (n - bytes.length) 0))
      else .err .overrun := by
  have found : heap.put (p, List.replicate n 0) p = some (List.replicate n 0) :=
    Function.update_self ..
  have again : ∀ block block', (heap.put (p, block)).put (p, block') = heap.put (p, block') :=
    fun _ _ => Function.update_idem ..
  simp only [write, found, List.length_replicate, List.drop_replicate, again]

end Heap
end CStrings
