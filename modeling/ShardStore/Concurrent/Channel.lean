/-!
# Bounded channels

First-in, first-out queues between threads. A send waits only while the queue is full and fails
only when the receiver is gone; a receive waits only while the queue is empty and ends only when
the queue is empty and every sender is gone. A channel without room never queues anything: its
items pass from hand to hand, when the receiver waits for one.
-/

namespace ShardStore

/-- A queue with room for `capacity` items. -/
structure Channel (α : Type) where
  capacity : Nat
  /-- Items that were sent and not received, oldest first. -/
  queue : List α := []
  /-- Number of senders that are left. -/
  senders : Nat := 1
  /-- Whether the receiver is left. -/
  receiving : Bool := true

/-- What comes of a send. -/
inductive Sent (α : Type) where
  /-- The item was queued. -/
  | queued (channel : Channel α)
  /-- The receiver is gone. -/
  | refused
  /-- There is no room. -/
  | waits

/-- What comes of a receive. -/
inductive Received (α : Type) where
  /-- The oldest item. -/
  | item (a : α) (channel : Channel α)
  /-- Nothing is queued and no sender is left. -/
  | ended
  /-- Nothing is queued yet. -/
  | waits

namespace Channel

variable {α : Type}

/-- Sends an item. -/
def send (channel : Channel α) (a : α) : Sent α :=
  if channel.receiving = false then .refused
  else if channel.queue.length < channel.capacity then
    .queued { channel with queue := channel.queue ++ [a] }
  else .waits

/-- Receives an item. -/
def receive (channel : Channel α) : Received α :=
  match channel.queue with
  | a :: rest => .item a { channel with queue := rest }
  | [] => if channel.senders = 0 then .ended else .waits

/-- One sender more. -/
def addSender (channel : Channel α) : Channel α :=
  { channel with senders := channel.senders + 1 }

/-- One sender less. -/
def dropSender (channel : Channel α) : Channel α :=
  { channel with senders := channel.senders - 1 }

/-- No receiver any more; what was queued is lost. -/
def dropReceiver (channel : Channel α) : Channel α :=
  { channel with receiving := false, queue := [] }

/-- A send keeps within the capacity. -/
theorem length_queue_le_of_send {channel channel' : Channel α} {a : α}
    (h : channel.send a = .queued channel') : channel'.queue.length ≤ channel'.capacity := by
  unfold send at h
  split at h
  · cases h
  · split at h
    · next hroom =>
      cases h
      simp only [List.length_append, List.length_singleton]
      omega
    · cases h

/-- A send queues an item exactly when the receiver is there and there is room. -/
theorem send_eq_queued_iff {channel channel' : Channel α} {a : α} :
    channel.send a = .queued channel' ↔ channel.receiving = true ∧
      channel.queue.length < channel.capacity ∧
      channel' = { channel with queue := channel.queue ++ [a] } := by
  unfold send
  split
  · next h => simp [h]
  · next h =>
    rw [Bool.not_eq_false] at h
    split
    · next hroom => simp [h, hroom, eq_comm]
    · next hroom => simp [hroom]

/-- A send is refused exactly when the receiver is gone. -/
theorem send_eq_refused_iff {channel : Channel α} {a : α} :
    channel.send a = .refused ↔ channel.receiving = false := by
  unfold send
  split
  · next h => simp [h]
  · next h => split <;> simp [h]

/-- A send waits only while the receiver is there and the queue is full. -/
theorem send_eq_waits_iff {channel : Channel α} {a : α} :
    channel.send a = .waits ↔
      channel.receiving = true ∧ channel.capacity ≤ channel.queue.length := by
  unfold send
  split
  · next h => simp [h]
  · next h =>
    split
    · next hroom => simp; omega
    · next hroom => simp at h hroom; simp [h, hroom]

/-- A receive hands out the oldest item. -/
theorem receive_eq_item_iff {channel channel' : Channel α} {a : α} :
    channel.receive = .item a channel' ↔
      ∃ queue, channel.queue = a :: queue ∧ channel' = { channel with queue } := by
  unfold receive
  split
  · next b rest h =>
    rw [h]
    constructor
    · intro heq
      cases heq
      exact ⟨rest, rfl, rfl⟩
    · rintro ⟨queue, heq, rfl⟩
      cases heq
      rfl
  · next h => split <;> simp [h]

/-- A receive ends only when the queue is empty and every sender is gone. -/
theorem receive_eq_ended_iff {channel : Channel α} :
    channel.receive = .ended ↔ channel.queue = [] ∧ channel.senders = 0 := by
  unfold receive
  split
  · next h => simp [h]
  · next h => split <;> simp_all

end Channel

end ShardStore
