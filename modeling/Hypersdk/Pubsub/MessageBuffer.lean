import Hypersdk.Codec.Packer
import Hypersdk.Foundations.System

/-!
# The message buffer of the pubsub server

`pubsub/message_buffer.go`. A `MessageBuffer` collects the messages sent to one connection and
flushes them as one batch, `CreateBatchMessage`: a count, then each message as a
length-prefixed slice. It flushes when a message would take the pending messages' lengths past
`maxSize`, when its timer fires, and on `Close`; the connection's write loop takes the batches
from `Queue`, and the client reads each with `ParseBatchMessage`.

A batch is created exactly when its `IntLen` and the `BytesLen` of every message fit `maxSize`
(`createBatchMessage_eq`), and a batch of non-empty messages parses back to them
(`parseBatchMessage_batchEncoding`). But `Send` budgets only the raw lengths (`BufferInv`), and a
buffer whose pending batch does not fit is `Stuck`: every call keeps it so (`stuck_stable`),
nothing is queued any more and `Close` fails. `Send` accepts into a new buffer any message of
more than `maxSize - 8` bytes, which makes it stuck (`send_new_stuck`). `ParseBatchMessage`
also requires every message non-empty, so a batch holding an empty message, which `Send`
accepts and `Close` flushes, does not parse (`parseBatchMessage_of_nil_mem`).
-/

namespace Hypersdk.Pubsub

open Codec BigEndian Foundations

/-- The errors of `Send` and `Close`: `ErrClosed`, `ErrMessageTooLarge`, and the packer's. -/
inductive PubsubError
  | closed
  | messageTooLarge
  | codec (e : PackerError)
  deriving DecidableEq, Repr

/-- A `MessageBuffer`. `queue` holds the batches in the channel `Queue`, oldest first, which
has room for `queueCap` of them; `timerSet` is whether the pending timer is set to fire. The
logger and the timeout are left out: only whether the timer is set matters here. -/
structure MessageBuffer where
  queue : List Bytes
  queueCap : ℕ
  pending : List Bytes
  pendingSize : ℕ
  maxSize : ℕ
  timerSet : Bool
  closed : Bool
  deriving DecidableEq, Repr

/-- `NewMessageBuffer(log, pending, maxSize, timeout)`. -/
def new (queueCap maxSize : ℕ) : MessageBuffer := ⟨[], queueCap, [], 0, maxSize, false, false⟩

/-! ## Batches -/

section Batches

variable (wr : Writers) (w : Wrappers)

/-- `CreateBatchMessage`: the count, then each message by `PackBytes`, in a writer that may
grow to `maxSize` (the capacity it starts with changes nothing). -/
def createBatchMessage (maxSize : ℕ) (msgs : List Bytes) : Except PackerError Bytes :=
  let p := newWriter maxSize
  let p := packInt wr msgs.length p
  let p := msgs.foldl (fun p msg => packBytes wr msg p) p
  match p.err with
  | some e => .error e
  | none => .ok p.bytes

/-- The loop of `ParseBatchMessage`: `n` more messages, each a required slice, stopping at the
first error. -/
def parseBatchMessageLoop : ℕ → List Bytes → Packer → Except PackerError (List Bytes)
  | 0, msgs, p =>
    match p.err with
    | some e => .error e
    | none => .ok msgs
  | n + 1, msgs, p =>
    let (nextMsg, p) := unpackBytes w (-1) true p
    match p.err with
    | some e => .error e
    | none => parseBatchMessageLoop n (msgs ++ [nextMsg]) p

/-- `ParseBatchMessage`: a required count, then that many required slices. -/
def parseBatchMessage (maxSize : ℕ) (msg : Bytes) : Except PackerError (List Bytes) :=
  let p := newReader msg maxSize
  let (msgLen, p) := unpackInt w true p
  parseBatchMessageLoop w msgLen [] p

end Batches

/-- The bytes of a batch: the count, then each message with its length. -/
def batchEncoding (msgs : List Bytes) : Bytes :=
  ofNat 4 msgs.length ++ msgs.flatMap fun msg => ofNat 4 msg.length ++ msg

/-- The `size` `CreateBatchMessage` computes: `IntLen`, and the `BytesLen` of each message. -/
def batchSize (msgs : List Bytes) : ℕ := 4 + (msgs.map bytesLen).sum

/-! ## The buffer -/

section Buffer

variable (wr : Writers)

/-- `clearPending`: the batch of the pending messages goes into `Queue`, or is dropped when the
channel is full, and the buffer empties; a batch that cannot be created is an error and changes
nothing. -/
def clearPending (m : MessageBuffer) : Except PubsubError MessageBuffer :=
  match createBatchMessage wr m.maxSize m.pending with
  | .error e => .error (.codec e)
  | .ok bm =>
    -- the `select` with a `default`: a full channel drops the batch
    let queue := if m.queue.length < m.queueCap then m.queue ++ [bm] else m.queue
    .ok { m with queue, pendingSize := 0, pending := [] }

/-- `Send`. A message that would take the pending size past `maxSize` first cancels the timer
and clears the pending messages; the first pending message sets the timer. -/
def send (m : MessageBuffer) (msg : Bytes) : MessageBuffer × Except PubsubError Unit :=
  if m.closed then (m, .error .closed)
  else if m.maxSize < msg.length then (m, .error .messageTooLarge)
  else
    let cleared := if m.maxSize < m.pendingSize + msg.length then
        clearPending wr { m with timerSet := false }
      else .ok m
    match cleared with
    | .error e => ({ m with timerSet := false }, .error e)
    | .ok m =>
      let m := { m with pendingSize := m.pendingSize + msg.length, pending := m.pending ++ [msg] }
      (if m.pending.length = 1 then { m with timerSet := true } else m, .ok ())

/-- The timer's callback when it fires: nothing on a closed buffer or with nothing pending,
otherwise `clearPending`, whose error is only logged. -/
def fire (m : MessageBuffer) : MessageBuffer :=
  let m := { m with timerSet := false }
  if m.closed then m
  else if m.pending = [] then m
  else
    match clearPending wr m with
    | .error _ => m
    | .ok m => m

/-- `Close`: flush what is pending, stop the timer and close `Queue`. -/
def close (m : MessageBuffer) : MessageBuffer × Except PubsubError Unit :=
  if m.closed then (m, .error .closed)
  else
    match clearPending wr m with
    | .error e => (m, .error e)
    | .ok m => ({ m with timerSet := false, closed := true }, .ok ())

/-- The connection's write loop takes the oldest batch from `Queue`. -/
def receive (m : MessageBuffer) : Option (Bytes × MessageBuffer) :=
  match m.queue with
  | [] => none
  | bm :: queue => some (bm, { m with queue })

/-- The calls on a buffer: `Send`, the timer firing, `Close`, and the write loop's receive. -/
inductive Call
  | send (msg : Bytes)
  | fire
  | close
  | receive

/-- The buffer as a transition system: the timer fires only when it is set, and a receive
needs a batch in `Queue`. -/
def system : System MessageBuffer Call where
  next
    | .send msg, m => some (send wr m msg).1
    | .fire, m => if m.timerSet then some (fire wr m) else none
    | .close, m => some (close wr m).1
    | .receive, m => (receive m).map Prod.snd

end Buffer

/-! ## Creating and parsing a batch -/

section BatchLemmas

variable {wr : Writers} {w : Wrappers} {tail : Bytes}

theorem length_batchEncoding (msgs : List Bytes) : (batchEncoding msgs).length = batchSize msgs := by
  simp only [batchEncoding, batchSize, List.length_append, length_ofNat, List.length_flatMap]
  rfl

/-- **`CreateBatchMessage` succeeds exactly when the batch fits `maxSize`.** -/
theorem createBatchMessage_eq (hwr : wr.Spec) (maxSize : ℕ) (msgs : List Bytes) :
    createBatchMessage wr maxSize msgs =
      if batchSize msgs ≤ maxSize then .ok (batchEncoding msgs) else .error .wrappers := by
  -- the count and the messages, each appended while it fits
  have ha : Appends (fun p => msgs.foldl (fun p msg => packBytes wr msg p) (packInt wr msgs.length p))
      (batchEncoding msgs) :=
    (appends_packInt hwr _).comp (Appends.foldl msgs fun msg _ => appends_packBytes hwr msg)
  have hp : (newWriter maxSize).Writing := ⟨rfl, rfl⟩
  split_ifs with hle
  · have h : msgs.foldl (fun p msg => packBytes wr msg p) (packInt wr msgs.length (newWriter maxSize)) =
        (newWriter maxSize).written (batchEncoding msgs) :=
      ha.writes _ hp (by simpa [newWriter, length_batchEncoding] using hle)
    simp only [createBatchMessage, h]
    rfl
  · have h : (msgs.foldl (fun p msg => packBytes wr msg p)
        (packInt wr msgs.length (newWriter maxSize))).err = some .wrappers :=
      ha.overflow _ hp (by simp [newWriter]) (by simp [newWriter, length_batchEncoding]; omega)
    simp only [createBatchMessage, h]

/-- A required slice that is not empty. -/
theorem unpackBytes_required_append (hw : w.Spec) {p : Packer} (h : p.err = none) {msg : Bytes}
    (hne : msg ≠ []) (hl : msg.length < 2 ^ 32) (hr : p.rest = ofNat 4 msg.length ++ msg ++ tail) :
    unpackBytes w (-1) true p = (msg, { p with offset := p.offset + 4 + msg.length }) := by
  simp [unpackBytes, unpackBytes_append hw h (lt_of_lt_of_eq hl (by decide)) hr, hne]

theorem parseBatchMessageLoop_of_nil_mem (hw : w.Spec) :
    ∀ (msgs acc : List Bytes) {p : Packer}, [] ∈ msgs → (∀ msg ∈ msgs, msg.length < 2 ^ 32) →
      p.err = none → p.rest = (msgs.flatMap fun msg => ofNat 4 msg.length ++ msg) ++ tail →
      parseBatchMessageLoop w msgs.length acc p = .error .fieldNotPopulated
  | [], _, _, hnil, _, _, _ => absurd hnil List.not_mem_nil
  | msg :: msgs, acc, p, hnil, hm, h, hr => by
    have hl := hm msg List.mem_cons_self
    have hr₁ : p.rest = ofNat 4 msg.length ++ msg ++
        ((msgs.flatMap fun msg => ofNat 4 msg.length ++ msg) ++ tail) := by
      simp [hr]
    by_cases hne : msg = []
    · -- the empty message fails the required check
      subst hne
      have h₁ : unpackBytes w (-1) true p =
          ([], ({ p with offset := p.offset + 4 } : Packer).addErr .fieldNotPopulated) := by
        have hb := unpackBytes_append hw h (b := []) (by decide) hr₁
        simp [unpackBytes, hb]
      simp only [List.length_cons, parseBatchMessageLoop, h₁]
      simp [h]
    · have hr₂ : ({ p with offset := p.offset + 4 + msg.length } : Packer).rest =
          (msgs.flatMap fun msg => ofNat 4 msg.length ++ msg) ++ tail := by
        have := Packer.rest_advance_of_length (n := 4 + msg.length) (by rw [hr₁, List.append_assoc])
          (by simp)
        rwa [← Nat.add_assoc] at this
      have ih := parseBatchMessageLoop_of_nil_mem hw msgs (acc ++ [msg])
        (p := { p with offset := p.offset + 4 + msg.length })
        ((List.mem_cons.mp hnil).resolve_left (Ne.symm hne))
        (fun m hm' => hm m (List.mem_cons_of_mem msg hm')) h hr₂
      simp only [List.length_cons, parseBatchMessageLoop, unpackBytes_required_append hw h hne hl hr₁]
      rw [ih]
      simp [h]

theorem rest_newReader_batchEncoding (maxSize : ℕ) (msgs : List Bytes) :
    (newReader (batchEncoding msgs ++ tail) maxSize).rest =
      ofNat 4 msgs.length ++ ((msgs.flatMap fun msg => ofNat 4 msg.length ++ msg) ++ tail) := by
  simp [newReader, Packer.rest, batchEncoding]

/-- **A batch holding an empty message does not parse**: `UnpackBytes` requires every message. -/
theorem parseBatchMessage_of_nil_mem (hw : w.Spec) (maxSize : ℕ) {msgs : List Bytes}
    (hnil : [] ∈ msgs) (hn : msgs.length < 2 ^ 32) (hm : ∀ msg ∈ msgs, msg.length < 2 ^ 32) :
    parseBatchMessage w maxSize (batchEncoding msgs ++ tail) = .error .fieldNotPopulated := by
  have hr : (newReader (batchEncoding msgs ++ tail) maxSize).rest = _ :=
    rest_newReader_batchEncoding maxSize msgs
  have h₁ := unpackInt_append_required hw rfl (lt_of_lt_of_eq hn (by decide))
    (List.length_pos_of_mem hnil).ne' hr
  have h₂ := parseBatchMessageLoop_of_nil_mem hw msgs [] hnil hm rfl
    (Packer.rest_advance_of_length hr (length_ofNat 4 _))
  simp only [parseBatchMessage, h₁, h₂]

end BatchLemmas

/-! ## Stuck buffers -/

section Stuck

variable {wr : Writers}

theorem clearPending_eq (hwr : wr.Spec) (m : MessageBuffer) :
    clearPending wr m = if batchSize m.pending ≤ m.maxSize then
      .ok { m with queue := if m.queue.length < m.queueCap then m.queue ++ [batchEncoding m.pending]
        else m.queue, pendingSize := 0, pending := [] }
    else .error (.codec .wrappers) := by
  rw [clearPending, createBatchMessage_eq hwr]
  split_ifs <;> rfl

theorem batchSize_append (msgs : List Bytes) (msg : Bytes) :
    batchSize (msgs ++ [msg]) = batchSize msgs + bytesLen msg := by
  simp [batchSize]
  omega

/-- A buffer whose pending batch does not fit `maxSize`, open, with nothing queued. -/
def Stuck (m : MessageBuffer) : Prop :=
  m.maxSize < batchSize m.pending ∧ m.closed = false ∧ m.queue = []

/-- A stuck buffer's `Send` returns an error and keeps it, or appends the message. -/
theorem send_of_stuck (hwr : wr.Spec) {m : MessageBuffer} (hs : Stuck m) (msg : Bytes) :
    Stuck (send wr m msg).1 := by
  obtain ⟨hlt, hc, hq⟩ := hs
  have hclear : clearPending wr { m with timerSet := false } = .error (.codec .wrappers) := by
    rw [clearPending_eq hwr, if_neg (by simpa using hlt)]
  have hcn : ¬ m.closed = true := by simp [hc]
  unfold Pubsub.send
  rw [if_neg hcn]
  by_cases hl : m.maxSize < msg.length
  · rw [if_pos hl]
    exact ⟨hlt, hc, hq⟩
  rw [if_neg hl]
  by_cases ho : m.maxSize < m.pendingSize + msg.length
  · rw [if_pos ho, hclear]
    exact ⟨hlt, hc, hq⟩
  · -- the message joins the pending ones, whose batch only grows
    have hgrow : m.maxSize < batchSize (m.pending ++ [msg]) := by
      rw [batchSize_append]
      omega
    rw [if_neg ho]
    dsimp only
    split <;> exact ⟨hgrow, hc, hq⟩

theorem fire_of_stuck (hwr : wr.Spec) {m : MessageBuffer} (hs : Stuck m) : Stuck (fire wr m) := by
  obtain ⟨hlt, hc, hq⟩ := hs
  have hcn : ¬ m.closed = true := by simp [hc]
  have hclear : clearPending wr { m with timerSet := false } = .error (.codec .wrappers) := by
    rw [clearPending_eq hwr, if_neg (by simpa using hlt)]
  unfold Pubsub.fire
  dsimp only
  rw [if_neg hcn]
  by_cases hp : m.pending = []
  · rw [if_pos hp]
    exact ⟨hlt, hc, hq⟩
  · rw [if_neg hp, hclear]
    exact ⟨hlt, hc, hq⟩

/-- A stuck buffer's `Close` fails with the packer's error and changes nothing. -/
theorem close_of_stuck (hwr : wr.Spec) {m : MessageBuffer} (hs : Stuck m) :
    close wr m = (m, .error (.codec .wrappers)) := by
  obtain ⟨hlt, hc, -⟩ := hs
  rw [close, clearPending_eq hwr, if_neg (Nat.not_le.mpr hlt)]
  simp [hc]

/-- **A stuck buffer stays stuck**, whatever is called on it. -/
theorem stuck_stable (hwr : wr.Spec) : (system wr).Stable Stuck := by
  intro c m m' h hs
  cases c with
  | send msg =>
    cases h
    exact send_of_stuck hwr hs msg
  | fire =>
    simp only [system] at h
    split at h
    · cases h
      exact fire_of_stuck hwr hs
    · cases h
  | close =>
    cases h
    rw [close_of_stuck hwr hs]
    exact hs
  | receive =>
    simp [system, receive, hs.2.2] at h

/-- `Send` into a new buffer accepts any message within `maxSize` and sets the timer. -/
theorem send_new (queueCap maxSize : ℕ) {msg : Bytes} (hl : msg.length ≤ maxSize) :
    send wr (new queueCap maxSize) msg = (⟨[], queueCap, [msg], msg.length, maxSize, true, false⟩, .ok ()) := by
  simp [send, new, Nat.not_lt.mpr hl]

/-- A message of more than `maxSize - 8` bytes that `Send` accepts makes a new buffer stuck. -/
theorem send_new_stuck (queueCap maxSize : ℕ) {msg : Bytes} (hl : msg.length ≤ maxSize)
    (hbig : maxSize < 8 + msg.length) : Stuck (send wr (new queueCap maxSize) msg).1 := by
  rw [send_new queueCap maxSize hl]
  refine ⟨?_, rfl, rfl⟩
  simp [batchSize, bytesLen]
  omega

end Stuck

/-- **`Send` accepts messages whose batch can never be sent, and a batch that does not parse.**
For every `maxSize` and every message of more than `maxSize - 8` and at most `maxSize` bytes,
`Send` into a new buffer returns nil, and from then on, whatever is called, nothing is queued,
the buffer stays open and `Close` fails. An empty message is accepted too, and `Close` queues
its batch, which `ParseBatchMessage` refuses. -/
theorem send_accepts_batches_that_fail {wr : Writers} {w : Wrappers} (hwr : wr.Spec)
    (hw : w.Spec) :
    (∀ (queueCap maxSize : ℕ) (msg : Bytes), msg.length ≤ maxSize → maxSize < 8 + msg.length →
      (send wr (new queueCap maxSize) msg).2 = .ok () ∧
      ∀ m, (system wr).Reaches (send wr (new queueCap maxSize) msg).1 m →
        m.queue = [] ∧ m.closed = false ∧ (close wr m).2 = .error (.codec .wrappers)) ∧
    ∀ (queueCap maxSize : ℕ), 0 < queueCap → 8 ≤ maxSize →
      (send wr (new queueCap maxSize) []).2 = .ok () ∧
      (close wr (send wr (new queueCap maxSize) []).1).1.queue = [batchEncoding [[]]] ∧
      parseBatchMessage w maxSize (batchEncoding [[]]) = .error .fieldNotPopulated := by
  have hnil : ∀ maxSize, ([] : Bytes).length ≤ maxSize := fun _ => Nat.zero_le _
  refine ⟨fun queueCap maxSize msg hl hbig => ⟨by rw [send_new queueCap maxSize hl], ?_⟩,
    fun queueCap maxSize hcap hmax => ⟨by rw [send_new queueCap maxSize (hnil maxSize)], ?_, ?_⟩⟩
  · intro m hm
    have hs := (stuck_stable hwr).reaches hm (send_new_stuck queueCap maxSize hl hbig)
    exact ⟨hs.2.2, hs.2.1, by rw [close_of_stuck hwr hs]⟩
  · -- the batch of the empty message fits, and the channel has room for it
    simp [send_new queueCap maxSize (hnil maxSize), close, clearPending_eq hwr, batchSize,
      bytesLen, hmax, hcap]
  · simpa using (parseBatchMessage_of_nil_mem hw maxSize (show ([] : Bytes) ∈ [[]] from
      List.mem_cons_self) (by decide) (by simp) :
      parseBatchMessage w maxSize (batchEncoding [[]] ++ []) = _)

/-- A one-byte message in a buffer of eight bytes: `Send` accepts it and `Close` fails. -/
theorem send_accepts_batches_that_fail_one_byte :
    (send Writers.writers (new 1 8) [1]).2 = .ok () ∧
      (close Writers.writers (send Writers.writers (new 1 8) [1]).1).2 =
        .error (.codec .wrappers) :=
  let h := ((send_accepts_batches_that_fail Writers.writers_spec Wrappers.wrappers_spec).1 1 8 [1]
    (by decide) (by decide))
  ⟨h.1, (h.2 _ (System.Reaches.refl _)).2.2⟩

/-! ## What every run keeps -/

section Runs

variable {wr : Writers} {w : Wrappers} {P : Bytes → Prop} {queueCap maxSize : ℕ}
  {m m' : MessageBuffer}

/-- What a buffer made by `new queueCap maxSize` keeps while the messages sent to it pass `P`:
its capacity and size; a pending size that counts the raw lengths of the pending messages and
stays within `maxSize`; a channel within its capacity that holds only batches created within
`maxSize`, of messages that pass `P`; a timer set only over pending messages; and nothing
pending, and no timer, once closed. -/
structure BufferInv (P : Bytes → Prop) (queueCap maxSize : ℕ) (m : MessageBuffer) : Prop where
  queueCap_eq : m.queueCap = queueCap
  maxSize_eq : m.maxSize = maxSize
  pendingSize_eq : m.pendingSize = (m.pending.map List.length).sum
  pendingSize_le : m.pendingSize ≤ maxSize
  pending : ∀ msg ∈ m.pending, P msg
  queue_length : m.queue.length ≤ queueCap
  queue : ∀ bm ∈ m.queue, ∃ msgs, bm = batchEncoding msgs ∧ batchSize msgs ≤ maxSize ∧
    ∀ msg ∈ msgs, P msg
  timer : m.timerSet = true → m.pending ≠ []
  closed : m.closed = true → m.pending = [] ∧ m.timerSet = false

theorem inv_new : BufferInv P queueCap maxSize (new queueCap maxSize) where
  queueCap_eq := rfl
  maxSize_eq := rfl
  pendingSize_eq := rfl
  pendingSize_le := Nat.zero_le _
  pending := by simp [new]
  queue_length := by simp [new]
  queue := by simp [new]
  timer := by simp [new]
  closed := by simp [new]

theorem BufferInv.stopTimer (hi : BufferInv P queueCap maxSize m) :
    BufferInv P queueCap maxSize { m with timerSet := false } :=
  { hi with
    timer := fun h => absurd h Bool.false_ne_true
    closed := fun h => ⟨(hi.closed h).1, rfl⟩ }

/-- `clearPending` that succeeds queues the batch of the pending messages, or drops it on a
full channel, and empties the buffer. -/
theorem clearPending_eq_ok (hwr : wr.Spec) (h : clearPending wr m = .ok m') :
    batchSize m.pending ≤ m.maxSize ∧ m' = { m with
      queue := if m.queue.length < m.queueCap then m.queue ++ [batchEncoding m.pending] else m.queue
      pendingSize := 0
      pending := [] } := by
  rw [clearPending_eq hwr] at h
  by_cases hle : batchSize m.pending ≤ m.maxSize
  · rw [if_pos hle] at h
    exact ⟨hle, (Except.ok.inj h).symm⟩
  · rw [if_neg hle] at h
    cases h

/-- `clearPending` does not look at the timer. -/
theorem clearPending_stopTimer (m : MessageBuffer) :
    clearPending wr { m with timerSet := false } =
      (clearPending wr m).map fun m' => { m' with timerSet := false } := by
  unfold clearPending
  cases createBatchMessage wr m.maxSize m.pending <;> rfl

/-- A buffer with its timer stopped keeps its invariant through a `clearPending` that
succeeds, which leaves nothing pending. -/
theorem BufferInv.clearPending (hwr : wr.Spec) (hi : BufferInv P queueCap maxSize m)
    (ht : m.timerSet = false) (h : clearPending wr m = .ok m') :
    BufferInv P queueCap maxSize m' ∧ m'.pending = [] ∧ m'.pendingSize = 0 ∧ m'.closed = m.closed ∧
      m'.timerSet = false := by
  obtain ⟨hle, rfl⟩ := clearPending_eq_ok hwr h
  refine ⟨{ hi with
    pendingSize_eq := rfl
    pendingSize_le := Nat.zero_le _
    pending := by simp
    queue_length := ?_
    queue := ?_
    timer := by simp [ht]
    closed := fun _ => ⟨rfl, ht⟩ }, rfl, rfl, rfl, ht⟩
  · -- the batch joins the channel only where it has room
    dsimp only
    split_ifs with hq
    · rw [List.length_append, List.length_singleton, ← hi.queueCap_eq]
      omega
    · exact hi.queue_length
  · intro bm hbm
    dsimp only at hbm
    split_ifs at hbm
    · rcases List.mem_append.mp hbm with hbm | hbm
      · exact hi.queue bm hbm
      · exact ⟨m.pending, List.mem_singleton.mp hbm, hi.maxSize_eq ▸ hle, hi.pending⟩
    · exact hi.queue bm hbm

/-- A message that fits joins the pending messages of an open buffer, whatever the timer. -/
theorem BufferInv.push (hi : BufferInv P queueCap maxSize m) (hc : m.closed = false) {msg : Bytes}
    (hP : P msg) (hle : m.pendingSize + msg.length ≤ maxSize) (t : Bool) :
    BufferInv P queueCap maxSize { m with
      pendingSize := m.pendingSize + msg.length
      pending := m.pending ++ [msg]
      timerSet := t } where
  queueCap_eq := hi.queueCap_eq
  maxSize_eq := hi.maxSize_eq
  pendingSize_eq := by simp [hi.pendingSize_eq]
  pendingSize_le := hle
  pending := by
    intro x hx
    rcases List.mem_append.mp hx with hx | hx
    · exact hi.pending x hx
    · rw [List.mem_singleton.mp hx]
      exact hP
  queue_length := hi.queue_length
  queue := hi.queue
  timer := fun _ => by simp
  closed := fun h => absurd (hc ▸ h : false = true) Bool.false_ne_true

theorem BufferInv.send (hwr : wr.Spec) (hi : BufferInv P queueCap maxSize m) {msg : Bytes} (hP : P msg) :
    BufferInv P queueCap maxSize (send wr m msg).1 := by
  unfold Pubsub.send
  by_cases hc : m.closed = true
  · rw [if_pos hc]
    exact hi
  rw [if_neg hc]
  by_cases hl : m.maxSize < msg.length
  · rw [if_pos hl]
    exact hi
  rw [if_neg hl]
  dsimp only
  split
  · -- clearing failed: only the timer was stopped
    exact hi.stopTimer
  · rename_i m₁ hm₁
    -- the buffer the message joins: `m` itself, or `m` cleared
    have h₁ : BufferInv P queueCap maxSize m₁ ∧ m₁.closed = false ∧
        m₁.pendingSize + msg.length ≤ maxSize := by
      split_ifs at hm₁ with ho
      · obtain ⟨hi₁, -, h0, hc₁, -⟩ := hi.stopTimer.clearPending hwr rfl hm₁
        refine ⟨hi₁, by simpa [hc₁] using hc, ?_⟩
        rw [h0, ← hi.maxSize_eq]
        omega
      · cases hm₁
        exact ⟨hi, by simpa using hc, by rw [← hi.maxSize_eq]; omega⟩
    obtain ⟨hi₁, hc₁, hle₁⟩ := h₁
    split
    · exact hi₁.push hc₁ hP hle₁ true
    · exact hi₁.push hc₁ hP hle₁ m₁.timerSet

theorem BufferInv.fire (hwr : wr.Spec) (hi : BufferInv P queueCap maxSize m) :
    BufferInv P queueCap maxSize (fire wr m) := by
  unfold Pubsub.fire
  dsimp only
  split_ifs
  · exact hi.stopTimer
  · exact hi.stopTimer
  · split
    · exact hi.stopTimer
    · rename_i m' hm'
      exact (hi.stopTimer.clearPending hwr rfl hm').1

/-- A closed buffer keeps its invariant, with nothing pending and the timer stopped. -/
theorem BufferInv.markClosed (hi : BufferInv P queueCap maxSize m) (hp : m.pending = [])
    (ht : m.timerSet = false) : BufferInv P queueCap maxSize { m with closed := true } :=
  { hi with closed := fun _ => ⟨hp, ht⟩ }

theorem BufferInv.close (hwr : wr.Spec) (hi : BufferInv P queueCap maxSize m) :
    BufferInv P queueCap maxSize (close wr m).1 := by
  unfold Pubsub.close
  split_ifs with hc
  · exact hi
  · split
    · exact hi
    · rename_i m' hm'
      -- the same batch as with the timer stopped
      have hs : Pubsub.clearPending wr { m with timerSet := false } =
          .ok { m' with timerSet := false } := by
        rw [clearPending_stopTimer, hm']
        rfl
      obtain ⟨hi', hp, -, -, ht⟩ := hi.stopTimer.clearPending hwr rfl hs
      exact hi'.markClosed hp ht

theorem BufferInv.receive (hi : BufferInv P queueCap maxSize m) {bm : Bytes} (h : receive m = some (bm, m')) :
    BufferInv P queueCap maxSize m' := by
  unfold Pubsub.receive at h
  split at h
  · cases h
  · rename_i b queue hq
    cases h
    refine { hi with queue_length := ?_, queue := fun x hx => hi.queue x ?_ }
    · have := hi.queue_length
      rw [hq, List.length_cons] at this
      exact Nat.le_of_succ_le this
    · rw [hq]
      exact List.mem_cons_of_mem _ hx

/-- The calls that send only messages passing `P`. -/
def Sends (P : Bytes → Prop) : Call → Prop
  | .send msg => P msg
  | _ => True

theorem inv_stableOn (hwr : wr.Spec) :
    (system wr).StableOn (Sends P) (BufferInv P queueCap maxSize) := by
  intro c m m' hc h hi
  cases c with
  | send msg =>
    cases h
    exact hi.send hwr hc
  | fire =>
    simp only [system] at h
    split at h
    · cases h
      exact hi.fire hwr
    · cases h
  | close =>
    cases h
    exact hi.close hwr
  | receive =>
    simp only [system, Option.map_eq_some_iff] at h
    obtain ⟨⟨bm, m''⟩, hr, rfl⟩ := h
    exact hi.receive hr

theorem inv_run (hwr : wr.Spec) {cs : List Call} (hcs : ∀ c ∈ cs, Sends P c)
    (h : (system wr).run cs (new queueCap maxSize) = some m) : BufferInv P queueCap maxSize m :=
  (inv_stableOn hwr).run hcs h inv_new

end Runs

/-! ## Every run stays within its bounds, and its batches parse -/

section RunResults

variable {wr : Writers} {w : Wrappers} {m : MessageBuffer}

/-- **Every run of a buffer keeps it within its bounds**: from a new buffer, whatever is called,
the pending size is the raw length of the pending messages and within `maxSize`, the channel is
within its capacity and holds only batches of at most `maxSize` bytes, the timer is set only
over pending messages, and a closed buffer has nothing pending and no timer. -/
theorem buffer_run_safe (hwr : wr.Spec) {queueCap maxSize : ℕ} {cs : List Call}
    (h : (system wr).run cs (new queueCap maxSize) = some m) :
    m.pendingSize = (m.pending.map List.length).sum ∧ m.pendingSize ≤ maxSize ∧
      m.queue.length ≤ queueCap ∧ (∀ bm ∈ m.queue, bm.length ≤ maxSize) ∧
      (m.timerSet = true → m.pending ≠ []) ∧
      (m.closed = true → m.pending = [] ∧ m.timerSet = false) := by
  have hi : BufferInv (fun _ => True) queueCap maxSize m :=
    inv_run hwr (fun c _ => by cases c <;> trivial) h
  refine ⟨hi.pendingSize_eq, hi.pendingSize_le, hi.queue_length, fun bm hbm => ?_, hi.timer,
    hi.closed⟩
  obtain ⟨msgs, rfl, hle, -⟩ := hi.queue bm hbm
  rw [length_batchEncoding]
  exact hle

/-- One byte sent to a buffer of sixteen bytes, then `Close`: the batch is queued. -/
theorem run_send_close :
    (system Writers.writers).run [.send [1], .close] (new 1 16) =
      some ⟨[batchEncoding [[1]]], 1, [], 0, 16, false, true⟩ := by
  rfl

theorem buffer_run_safe_send_close :
    (0 : ℕ) = (([] : List Bytes).map List.length).sum ∧ (0 : ℕ) ≤ 16 ∧
      [batchEncoding [[1]]].length ≤ 1 ∧ (∀ bm ∈ [batchEncoding [[1]]], bm.length ≤ 16) ∧
      (false = true → ([] : List Bytes) ≠ []) ∧
      (true = true → ([] : List Bytes) = [] ∧ false = false) :=
  buffer_run_safe Writers.writers_spec run_send_close

end RunResults

end Hypersdk.Pubsub
