import Nolik.FfiMetadata
import Nolik.Library.CString
import Nolik.Library.Js

/-! A host of the FFI writes requests into memory that it had allocated, gets replies, and gives
both back. Which pointers it uses, and in which order, is up to the host. That the allocator
finds no room and that the core aborts both end a run. -/
namespace Nolik
open ByteString Effects KeyValue JsonText Serde CStrings

namespace Ffi
variable {K : Type}

structure Crates (K : Type) where
  base64 : Base64.Engine
  cb : CryptoBox K
  debug : DebugText
  format : TextFormat
  blake2s : Bytes → ByteArr keySize

/-- The exported functions that take a request, with their draws. -/
inductive Exported where
  | newEncryptedMetadata (secretNonce : SalsaNonce) (brokerSk : SecretKey)
  | decryptMetadata
  | encryptMessage
  | decryptMessage

def Exported.run (crates : Crates K) : Exported → Bytes → Outcome Empty Bytes
  | .newEncryptedMetadata secretNonce brokerSk => Ffi.newEncryptedMetadata crates.base64 crates.cb
      crates.debug crates.format crates.blake2s secretNonce brokerSk
  | .decryptMetadata => Ffi.decryptMetadata crates.cb crates.debug crates.format
  | .encryptMessage => Ffi.encryptMessage crates.base64 crates.cb crates.debug crates.format
  | .decryptMessage => Ffi.decryptMessage crates.base64 crates.cb crates.debug crates.format

section Memory
variable (allocator : Allocator)

/-- `CString::from_vec_unchecked(vec![0; size])`, which adds a zero. -/
def allocate (size : Nat) : Heap → Outcome Fault (Pointer × Heap) :=
  intoRaw allocator (allocateString (List.replicate size 0))

def deallocate (pointer : Pointer) : Heap → Outcome Fault Heap := fromRaw pointer

def handOut (reply : Outcome Empty Bytes) (heap : Heap) : Outcome Fault Heap := do
  let block ← reply.mapErr Empty.elim
  let (_, heap) ← intoRaw allocator block heap
  pure heap

/-- `new Box(instance, allocate(params.length))`, and the host writes the text there. -/
def writeRequest (params : List Char) (heap : Heap) : Outcome Fault (Pointer × Heap) := do
  let (pointer, heap) ← allocate allocator (Js.textLength params) heap
  let heap ← write pointer (Js.encodeText params) heap
  pure (pointer, heap)

/-- A text of characters that one byte holds, without the zero. -/
structure AsciiText where
  chars : List Char
  ascii : ∀ c ∈ chars, c.toNat ≠ 0 ∧ c.toNat < 128

inductive HostAction where
  | request (params : AsciiText)
  | generateNonce (nonce : SalsaNonce)
  | generateKeypair (secret : SecretKey)
  | call (function : Exported) (input : Pointer)
  | deallocate (pointer : Pointer)

def HostAction.uses : HostAction → Option Pointer
  | .call _ input => some input
  | .deallocate pointer => some pointer
  | _ => none

variable (crates : Crates K)

def step (heap : Heap) : HostAction → Outcome Fault Heap
  | .request params => Prod.snd <$> writeRequest allocator params.chars heap
  | .generateNonce nonce => handOut allocator (generateNonce crates.format nonce) heap
  | .generateKeypair secret =>
      handOut allocator (generateKeypair crates.cb crates.format secret) heap
  | .call function input => match heap input with
      | none => .err .dangling
      | some block =>
          -- the function reads up to a zero
          if 0 ∉ block then .err .overrun else handOut allocator (function.run crates block) heap
  | .deallocate pointer => deallocate pointer heap

def run (heap : Heap) (actions : List HostAction) : Outcome Fault Heap :=
  actions.foldlM (step allocator crates) heap

end Memory

section Replies
variable {format : TextFormat}

theorem serializeAndAllocate_terminated (text : format.Lawful) {R : Type} {serialize : R → Json}
    {ret : R} (fits : (serialize ret).Fits depthLimit) :
    Terminated (serializeAndAllocate format serialize ret) := by
  obtain ⟨s, written, -, whole⟩ := text.read_toText fits
  refine ⟨s, ?_, whole⟩
  simp only [serializeAndAllocate, written, allocateString]

variable {crates : Crates K}

theorem generateNonce_terminated (text : crates.format.Lawful) {nonce : SalsaNonce} {block : Bytes}
    (returned : generateNonce crates.format nonce = .ok block) : Terminated block := by
  rw [generateNonce, nonceArray_eq] at returned
  cases returned
  exact serializeAndAllocate_terminated text (NonceWrap.fits_serialize _)

theorem generateKeypair_terminated (text : crates.format.Lawful) {secret : SecretKey}
    {block : Bytes} (returned : generateKeypair crates.cb crates.format secret = .ok block) :
    Terminated block := by
  cases returned
  exact serializeAndAllocate_terminated text (KeyPair.fits_serialize _)

theorem Exported.run_terminated (text : crates.format.Lawful) {function : Exported}
    {request block : Bytes} (returned : function.run crates request = .ok block) :
    Terminated block := by
  cases function with
  | newEncryptedMetadata secretNonce brokerSk =>
      simp only [Exported.run] at returned
      cases parsed : readEncryptParams crates.base64 crates.format request with
      | error e =>
          rw [newEncryptedMetadata_unread parsed] at returned
          cases returned
          exact serializeAndAllocate_terminated text (MetadataEncryptReturn.fits_serialize _)
      | ok params =>
          rw [newEncryptedMetadata_parsed parsed] at returned
          split at returned
          · cases returned
            exact serializeAndAllocate_terminated text (MetadataEncryptReturn.fits_serialize _)
          · cases returned
            exact serializeAndAllocate_terminated text (MetadataEncryptReturn.fits_serialize _)
  | decryptMetadata =>
      simp only [Exported.run] at returned
      cases parsed : readDecryptParams crates.format request with
      | error e =>
          rw [decryptMetadata_unread parsed] at returned
          cases returned
          exact serializeAndAllocate_terminated text (MetadataDecryptReturn.fits_serialize _)
      | ok params =>
          rw [decryptMetadata_parsed parsed] at returned
          split at returned
          · cases returned
          · cases returned
            exact serializeAndAllocate_terminated text (MetadataDecryptReturn.fits_serialize _)
          · cases returned
            exact serializeAndAllocate_terminated text (MetadataDecryptReturn.fits_serialize _)
  | encryptMessage =>
      simp only [Exported.run, Ffi.encryptMessage, onMessage_eq] at returned
      cases returned
      exact serializeAndAllocate_terminated text (MessageReturn.fits_serialize _ _)
  | decryptMessage =>
      simp only [Exported.run, Ffi.decryptMessage, onMessage_eq] at returned
      cases returned
      exact serializeAndAllocate_terminated text (MessageReturn.fits_serialize _ _)

end Replies

section Requests
variable {allocator : Allocator} {params : List Char} {heap : Heap} {p : Pointer}

theorem writeRequest_placed (room : allocator.place heap (Js.textLength params + 1) = some p) :
    writeRequest allocator params heap =
      if (Js.encodeText params).length ≤ Js.textLength params + 1 then
        .ok (p, heap.put (p, Js.encodeText params ++
          List.replicate (Js.textLength params + 1 - (Js.encodeText params).length) 0))
      else .err .overrun := by
  have zeros : allocateString (List.replicate (Js.textLength params) 0) =
      List.replicate (Js.textLength params + 1) 0 := List.replicate_succ'.symm
  have placed : allocate allocator (Js.textLength params) heap =
      .ok (p, heap.put (p, List.replicate (Js.textLength params + 1) 0)) := by
    rw [allocate, zeros, intoRaw, List.length_replicate, room]
  rw [writeRequest, placed, Outcome.ok_bind]
  simp only [write_zeros]
  split
  · rfl
  · rfl

theorem writeRequest_ascii (ascii : ∀ c ∈ params, c.toNat < 128)
    (room : allocator.place heap (Js.textLength params + 1) = some p) :
    writeRequest allocator params heap =
      .ok (p, heap.put (p, Js.encodeText params ++ [0])) := by
  have size := (Js.length_encodeText_eq_iff params).mpr ascii
  rw [writeRequest_placed room, size, if_pos (Nat.le_succ _), Nat.add_sub_cancel_left]
  rfl

/-- A longer text leaves no zero at the end, or does not fit at all. -/
theorem writeRequest_longer (nonzero : ∀ c ∈ params, c.toNat ≠ 0)
    (longer : ¬ ∀ c ∈ params, c.toNat < 128)
    (room : allocator.place heap (Js.textLength params + 1) = some p) :
    writeRequest allocator params heap = .err .overrun ∨
      ∃ block, writeRequest allocator params heap = .ok (p, heap.put (p, block)) ∧ 0 ∉ block := by
  have least := Js.textLength_le_encodeText params
  rw [← Js.length_encodeText_eq_iff] at longer
  rw [writeRequest_placed room]
  by_cases fits : (Js.encodeText params).length ≤ Js.textLength params + 1
  · have full : Js.textLength params + 1 - (Js.encodeText params).length = 0 := by omega
    refine .inr ⟨Js.encodeText params, ?_, Js.zero_notMem_encodeText nonzero⟩
    rw [if_pos fits, full, List.replicate_zero, List.append_nil]
  · exact .inl (if_neg fits)

/-- The host may write a text of any length, but asks for as many bytes as the text has units.
The request is sound, and can be given back, exactly when these are the same. Otherwise the
text overruns its block or has no zero behind it. -/
theorem request_sound_iff (sound : Sound heap) (nonzero : ∀ c ∈ params, c.toNat ≠ 0)
    (room : allocator.place heap (Js.textLength params + 1) = some p) :
    ((∃ heap', writeRequest allocator params heap = .ok (p, heap') ∧ Sound heap') ↔
      ∀ c ∈ params, c.toNat < 128) ∧
    ((do let (pointer, heap') ← writeRequest allocator params heap
         deallocate pointer heap') = .ok heap ↔ ∀ c ∈ params, c.toNat < 128) ∧
    ((¬ ∀ c ∈ params, c.toNat < 128) → writeRequest allocator params heap = .err .overrun ∨
      ∃ block, writeRequest allocator params heap = .ok (p, heap.put (p, block)) ∧
        0 ∉ block) := by
  rw [← and_assoc]
  refine ⟨?_, fun longer => writeRequest_longer nonzero longer room⟩
  by_cases ascii : ∀ c ∈ params, c.toNat < 128
  · have written := writeRequest_ascii ascii room
    have terminated : Terminated (Js.encodeText params ++ [0]) :=
      ⟨_, rfl, Js.zero_notMem_encodeText nonzero⟩
    refine ⟨⟨fun _ => ascii, fun _ => ⟨_, written, sound.put terminated⟩⟩, fun _ => ascii, ?_⟩
    intro _
    rw [written, Outcome.ok_bind]
    have found : heap.put (p, Js.encodeText params ++ [0]) p = some (Js.encodeText params ++ [0]) :=
      Function.update_self ..
    have back : Function.update (heap.put (p, Js.encodeText params ++ [0])) p none = heap := by
      rw [Store.put, Function.update_idem, ← allocator.fresh room, Function.update_eq_self]
    exact (fromRaw_terminated found terminated).trans (congrArg Outcome.ok back)
  · refine ⟨⟨fun kept => absurd kept ?_, fun all => absurd all ascii⟩,
      fun kept => absurd kept ?_, fun all => absurd all ascii⟩
    · rintro ⟨heap', written, sound'⟩
      rcases writeRequest_longer nonzero ascii room with overrun | ⟨block, written', whole⟩
      · rw [overrun] at written
        cases written
      · rw [written'] at written
        cases written
        exact whole (sound' p block (Function.update_self ..)).zero_mem
    · rcases writeRequest_longer nonzero ascii room with overrun | ⟨block, written, whole⟩
      · rw [overrun]
        exact fun h => (by cases h)
      · have found : heap.put (p, block) p = some block := Function.update_self ..
        obtain ⟨e, fault⟩ := fromRaw_unterminated found fun terminated => whole terminated.zero_mem
        rw [written, Outcome.ok_bind]
        change fromRaw p (heap.put (p, block)) ≠ .ok heap
        rw [fault]
        exact fun h => (by cases h)

/-- One character of one unit and two bytes takes the place of the final zero. -/
theorem request_sound_iff_accent :
    let written := writeRequest (Allocator.first 1) [Char.ofNat 0xe9] Store.empty
    (¬ ∃ heap', written = .ok (0, heap') ∧ Sound heap') ∧
      ∃ block, written = .ok (0, Store.empty.put (0, block)) ∧ 0 ∉ block := by
  intro written
  have empty : Sound Store.empty := fun p block found => (by cases found)
  have nonzero : ∀ c ∈ [Char.ofNat 0xe9], c.toNat ≠ 0 :=
    List.forall_mem_singleton.mpr (by decide)
  have wide : ¬ ∀ c ∈ [Char.ofNat 0xe9], c.toNat < 128 :=
    fun ascii => absurd (ascii _ List.mem_cons_self) (by decide)
  obtain ⟨keeps, -, longer⟩ := @request_sound_iff (Allocator.first 1) _ _ 0 empty nonzero rfl
  refine ⟨fun sound => wide (keeps.mp sound), (longer wide).resolve_left ?_⟩
  exact fun overrun => (by cases overrun)

end Requests

section Runs
variable {allocator : Allocator} {crates : Crates K} {heap heap' : Heap}

/-- What one action does to the memory. -/
inductive Effect (heap : Heap) (act : HostAction) : Outcome Fault Heap → Prop where
  | handed {p : Pointer} {block : Bytes} (free : heap p = none) (terminated : Terminated block) :
      Effect heap act (.ok (heap.put (p, block)))
  | freed {p : Pointer} (which : act = .deallocate p) (live : heap p ≠ none) :
      Effect heap act (.ok (Function.update heap p none))
  | aborted : Effect heap act .panic
  | dangling {p : Pointer} (uses : act.uses = some p) (dead : heap p = none) :
      Effect heap act (.err .dangling)

theorem handOut_effect {act : HostAction} {reply : Outcome Empty Bytes}
    (terminated : ∀ block, reply = .ok block → Terminated block) :
    Effect heap act (handOut allocator reply heap) := by
  cases returned : reply with
  | err e => exact e.elim
  | panic => exact .aborted
  | ok block =>
      have placed := intoRaw_cases allocator block heap
      simp only [handOut, Outcome.mapErr, Outcome.ok_bind]
      rcases placed with full | ⟨p, free, placed⟩
      · rw [full]
        exact .aborted
      · rw [placed]
        exact .handed free (terminated block returned)

theorem request_effect (params : AsciiText) {act : HostAction} :
    Effect heap act (Prod.snd <$> writeRequest allocator params.chars heap) := by
  have nonzero := fun c member => (params.ascii c member).1
  cases room : allocator.place heap (Js.textLength params.chars + 1) with
  | none =>
      have full : allocate allocator (Js.textLength params.chars) heap = .panic := by
        rw [allocate, intoRaw, allocateString, List.length_append, List.length_replicate,
          List.length_singleton, room]
      rw [writeRequest, full]
      exact .aborted
  | some p =>
      rw [writeRequest_ascii (fun c member => (params.ascii c member).2) room]
      exact .handed (allocator.fresh room) ⟨_, rfl, Js.zero_notMem_encodeText nonzero⟩

theorem deallocate_effect (sound : Sound heap) (p : Pointer) :
    Effect heap (.deallocate p) (deallocate p heap) := by
  cases found : heap p with
  | none =>
      have dead : deallocate p heap = .err .dangling := by
        rw [deallocate, fromRaw, found]
      rw [dead]
      exact .dangling rfl found
  | some block =>
      rw [deallocate, fromRaw_terminated found (sound p block found)]
      refine .freed rfl ?_
      rw [found]
      exact Option.some_ne_none block

theorem step_effect (text : crates.format.Lawful) (sound : Sound heap) (act : HostAction) :
    Effect heap act (step allocator crates heap act) := by
  cases act with
  | request params => exact request_effect params
  | generateNonce nonce => exact handOut_effect fun _ => generateNonce_terminated text
  | generateKeypair secret => exact handOut_effect fun _ => generateKeypair_terminated text
  | deallocate p => exact deallocate_effect sound p
  | call function input =>
      simp only [step]
      cases found : heap input with
      | none => exact .dangling rfl found
      | some block =>
          have zero : ¬ 0 ∉ block := not_not.mpr (sound input block found).zero_mem
          simp only [if_neg zero]
          exact handOut_effect fun _ => Exported.run_terminated text

theorem run_cons (act : HostAction) (actions : List HostAction) :
    run allocator crates heap (act :: actions) =
      step allocator crates heap act >>= fun heap => run allocator crates heap actions :=
  List.foldlM_cons

theorem step_sound (text : crates.format.Lawful) (sound : Sound heap) {act : HostAction}
    (stepped : step allocator crates heap act = .ok heap') : Sound heap' := by
  have effect := @step_effect K allocator crates heap text sound act
  rw [stepped] at effect
  cases effect with
  | handed free terminated => exact sound.put terminated
  | freed which live => exact sound.free

theorem step_keeps (text : crates.format.Lawful) (sound : Sound heap) {act : HostAction}
    (stepped : step allocator crates heap act = .ok heap') {p : Pointer} (live : heap p ≠ none)
    (kept : act ≠ .deallocate p) : heap' p = heap p := by
  have effect := @step_effect K allocator crates heap text sound act
  rw [stepped] at effect
  cases effect with
  | @handed q block free terminated =>
      have other : p ≠ q := fun same => live (same ▸ free)
      exact Function.update_of_ne other ..
  | @freed q which _ =>
      have other : p ≠ q := fun same => kept (same ▸ which)
      exact Function.update_of_ne other ..

theorem run_sound (text : crates.format.Lawful) (sound : Sound heap) {actions : List HostAction}
    (ran : run allocator crates heap actions = .ok heap') :
    Sound heap' ∧ ∀ p, heap p ≠ none → .deallocate p ∉ actions → heap' p = heap p := by
  induction actions generalizing heap with
  | nil =>
      cases ran
      exact ⟨sound, fun _ _ _ => rfl⟩
  | cons act actions ih =>
      rw [run_cons, Outcome.bind_ok_iff] at ran
      obtain ⟨middle, stepped, ran⟩ := ran
      obtain ⟨sound', kept⟩ := ih (step_sound text sound stepped) ran
      refine ⟨sound', fun p live never => ?_⟩
      rw [List.mem_cons, not_or] at never
      have first := step_keeps text sound stepped live (Ne.symm never.1)
      rw [← first] at live ⊢
      exact kept p live never.2

/-- A fault is a pointer that the host does not have. -/
theorem run_fault (text : crates.format.Lawful) (sound : Sound heap) {actions : List HostAction}
    {e : Fault} (faulted : run allocator crates heap actions = .err e) :
    e = .dangling ∧ ∃ before act after heap' p, actions = before ++ act :: after ∧
      run allocator crates heap before = .ok heap' ∧ act.uses = some p ∧ heap' p = none := by
  induction actions generalizing heap with
  | nil => cases faulted
  | cons act actions ih =>
      have effect := @step_effect K allocator crates heap text sound act
      rw [run_cons] at faulted
      cases stepped : step allocator crates heap act with
      | panic =>
          rw [stepped] at faulted
          cases faulted
      | err e' =>
          rw [stepped] at effect faulted
          cases faulted
          cases effect with
          | dangling uses dead => exact ⟨rfl, [], act, actions, heap, _, rfl, rfl, uses, dead⟩
      | ok middle =>
          rw [stepped] at faulted
          obtain ⟨same, before, act', after, heap', p, rfl, ran, uses, dead⟩ :=
            ih (step_sound text sound stepped) faulted
          refine ⟨same, act :: before, act', after, heap', p, rfl, ?_, uses, dead⟩
          rw [run_cons, stepped]
          exact ran

theorem run_deallocate (sound : Sound heap) {ps : List Pointer} (nodup : ps.Nodup)
    (live : ∀ p ∈ ps, heap p ≠ none) :
    run allocator crates heap (ps.map .deallocate) = .ok fun p =>
      if p ∈ ps then none else heap p := by
  induction ps generalizing heap with
  | nil => rfl
  | cons q ps ih =>
      obtain ⟨fresh, nodup⟩ := List.nodup_cons.mp nodup
      obtain ⟨first, rest⟩ := List.forall_mem_cons.mp live
      obtain ⟨block, found⟩ := Option.ne_none_iff_exists'.mp first
      have stepped : step allocator crates heap (.deallocate q) =
          .ok (Function.update heap q none) := fromRaw_terminated found (sound q block found)
      have other : ∀ p ∈ ps, p ≠ q := fun p member same => fresh (same ▸ member)
      have live' : ∀ p ∈ ps, Function.update heap q none p ≠ none := by
        intro p member
        rw [Function.update_of_ne (other p member)]
        exact rest p member
      rw [List.map_cons, run_cons, stepped, Outcome.ok_bind, ih sound.free nodup live']
      congr 1
      funext p
      by_cases same : p = q
      · subst same
        rw [if_neg fresh, Function.update_self, if_pos List.mem_cons_self]
      · simp only [List.mem_cons, same, false_or, Function.update_of_ne same]

/-- No run faults unless the host uses a pointer that it does not have. In every run blocks
stay sound and unchanged until they are given back, and what is live in the end can be. -/
theorem host_run_safe (text : crates.format.Lawful) (sound : Sound heap)
    (actions : List HostAction) :
    (∀ e, run allocator crates heap actions = .err e → e = .dangling ∧
      ∃ before act after heap' p, actions = before ++ act :: after ∧
        run allocator crates heap before = .ok heap' ∧ act.uses = some p ∧ heap' p = none) ∧
    ∀ heap', run allocator crates heap actions = .ok heap' →
      Sound heap' ∧
      (∀ p, heap p ≠ none → .deallocate p ∉ actions → heap' p = heap p) ∧
      ∀ ps : List Pointer, ps.Nodup → (∀ p ∈ ps, heap' p ≠ none) →
        run allocator crates heap' (ps.map .deallocate) = .ok fun p =>
          if p ∈ ps then none else heap' p := by
  refine ⟨fun e => run_fault text sound, fun heap' ran => ?_⟩
  obtain ⟨sound', kept⟩ := run_sound text sound ran
  exact ⟨sound', kept, fun ps nodup live => run_deallocate sound' nodup live⟩

end Runs

def Crates.sample : Crates (ByteArr keySize) where
  base64 := Base64.standard
  cb := clearBox
  debug := ⟨fun _ => "", fun _ => "", fun _ => ""⟩
  format := compactText
  blake2s := numeralDigest

def AsciiText.braces : AsciiText where
  chars := ['{', '}']
  ascii := List.forall_mem_cons.mpr ⟨by decide, List.forall_mem_singleton.mpr (by decide)⟩

theorem host_run_safe_sample :
    ∃ heap', run (Allocator.first 2) Crates.sample Store.empty
        [.request .braces, .call .decryptMetadata 0] = .ok heap' ∧
      run (Allocator.first 2) Crates.sample heap' [.deallocate 1, .deallocate 0] =
        .ok fun p => if p ∈ [1, 0] then none else heap' p := by
  have ran : run (Allocator.first 2) Crates.sample Store.empty
      [.request .braces, .call .decryptMetadata 0] = .ok _ := rfl
  have empty : Sound Store.empty := fun p block found => (by cases found)
  have safe := @host_run_safe _ (Allocator.first 2) Crates.sample _ compactText_lawful empty
  obtain ⟨-, -, back⟩ := (safe _).2 _ ran
  refine ⟨_, ran, back [1, 0] (by decide) ?_⟩
  exact List.forall_mem_cons.mpr ⟨by decide, List.forall_mem_singleton.mpr (by decide)⟩

end Ffi
end Nolik
