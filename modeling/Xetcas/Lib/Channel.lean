namespace Xetcas.Lib

/-- A bounded channel with one sender and one receiver. The queue holds what was
sent and not yet received, oldest first. -/
structure Channel (α : Type) (capacity : Nat) where
  queue : List α
  senderGone : Bool
  receiverGone : Bool
  bounded : queue.length ≤ capacity

namespace Channel
variable {α : Type} {capacity : Nat} {c c' : Channel α capacity} {x : α}

def fresh : Channel α capacity := ⟨[], false, false, Nat.zero_le _⟩

/-- Send, and whether the item is on its way: with the receiver gone it is not.
`none` is a sender that waits for a free slot. -/
def send (c : Channel α capacity) (x : α) : Option (Channel α capacity × Bool) :=
  if c.receiverGone then some (c, false)
  else if free : c.queue.length < capacity then
    some (⟨c.queue ++ [x], c.senderGone, false, by rw [List.length_append]; exact free⟩, true)
  else none

/-- Receive the oldest item, or learn that there will be none. `none` is a
receiver that waits. -/
def receive (c : Channel α capacity) : Option (Channel α capacity × Option α) :=
  match h : c.queue with
  | x :: rest =>
    some (⟨rest, c.senderGone, c.receiverGone, by
      have := c.bounded
      rw [h, List.length_cons] at this
      omega⟩, some x)
  | [] => if c.senderGone then some (c, none) else none

def dropSender (c : Channel α capacity) : Channel α capacity := { c with senderGone := true }

def dropReceiver (c : Channel α capacity) : Channel α capacity :=
  ⟨[], c.senderGone, true, Nat.zero_le _⟩

@[simp] theorem queue_fresh : (fresh : Channel α capacity).queue = [] := rfl
@[simp] theorem senderGone_fresh : (fresh : Channel α capacity).senderGone = false := rfl
@[simp] theorem receiverGone_fresh : (fresh : Channel α capacity).receiverGone = false := rfl
@[simp] theorem queue_dropSender : c.dropSender.queue = c.queue := rfl
@[simp] theorem senderGone_dropSender : c.dropSender.senderGone = true := rfl
@[simp] theorem receiverGone_dropSender : c.dropSender.receiverGone = c.receiverGone := rfl
@[simp] theorem queue_dropReceiver : c.dropReceiver.queue = [] := rfl
@[simp] theorem senderGone_dropReceiver : c.dropReceiver.senderGone = c.senderGone := rfl
@[simp] theorem receiverGone_dropReceiver : c.dropReceiver.receiverGone = true := rfl

/-- A send that returns has found the receiver gone, or has queued its item. -/
theorem send_cases {ok : Bool} (h : c.send x = some (c', ok)) :
    ok = false ∧ c.receiverGone = true ∧ c' = c ∨
      ok = true ∧ c.receiverGone = false ∧ c'.queue = c.queue ++ [x] ∧
        c'.senderGone = c.senderGone ∧ c'.receiverGone = false := by
  unfold send at h
  split at h
  · rename_i gone
    cases h
    exact .inl ⟨rfl, gone, rfl⟩
  · rename_i here
    split at h
    · cases h
      exact .inr ⟨rfl, by simpa using here, rfl, rfl, rfl⟩
    · cases h

/-- A receive that returns has taken the oldest item, or there will be none. -/
theorem receive_cases {got : Option α} (h : c.receive = some (c', got)) :
    (∃ x rest, got = some x ∧ c.queue = x :: rest ∧ c'.queue = rest ∧
        c'.senderGone = c.senderGone ∧ c'.receiverGone = c.receiverGone) ∨
      got = none ∧ c.queue = [] ∧ c.senderGone = true ∧ c' = c := by
  unfold receive at h
  split at h
  · rename_i x rest hqueue
    cases h
    exact .inl ⟨x, rest, rfl, hqueue, rfl, rfl, rfl⟩
  · rename_i hqueue
    split at h
    · rename_i gone
      cases h
      exact .inr ⟨rfl, hqueue, gone, rfl⟩
    · cases h

/-- A sender that waits has a full queue and a receiver. -/
theorem send_waits (h : c.send x = none) :
    c.receiverGone = false ∧ c.queue.length = capacity := by
  unfold send at h
  split at h
  · cases h
  · rename_i here
    split at h
    · cases h
    · have := c.bounded
      exact ⟨by simpa using here, by omega⟩

/-- A receiver that waits has an empty queue and a sender. -/
theorem receive_waits (h : c.receive = none) : c.queue = [] ∧ c.senderGone = false := by
  unfold receive at h
  split at h
  · cases h
  · rename_i hqueue
    split at h
    · cases h
    · rename_i here
      exact ⟨hqueue, by simpa using here⟩

end Channel

end Xetcas.Lib
