import Mathlib.Data.Finset.Prod
import Mathlib.Data.List.Sort
import Mathlib.Data.Multiset.AddSub
import RaftRupee.Core.Node

namespace RaftRupee

@[ext]
structure ScheduledMessage where
  deliveryTick : ℕ
  msg          : Message
  deriving DecidableEq, Repr

-- What is documented of `std::collections::BinaryHeap`, with the order of `ScheduledMessage`, which
-- only looks at the delivery ticks: which one of several messages with the least tick is popped is up
-- to the implementation.
structure BinaryHeap where
  Heap            : Type
  new             : Heap
  push            : Heap → ScheduledMessage → Heap
  pop             : Heap → Option (ScheduledMessage × Heap)
  toMultiset      : Heap → Multiset ScheduledMessage
  toMultiset_new  : toMultiset new = 0
  toMultiset_push : ∀ heap m, toMultiset (push heap m) = m ::ₘ toMultiset heap
  pop_none        : ∀ {heap}, pop heap = none → toMultiset heap = 0
  pop_some        : ∀ {heap m heap'}, pop heap = some (m, heap') →
    toMultiset heap = m ::ₘ toMultiset heap' ∧
      ∀ m' ∈ toMultiset heap, m.deliveryTick ≤ m'.deliveryTick

namespace BinaryHeap

def Earlier (m m' : ScheduledMessage) : Prop :=
  m.deliveryTick ≤ m'.deliveryTick

instance : DecidableRel Earlier :=
  fun _ _ => inferInstanceAs (Decidable (_ ≤ _))

instance : Std.Total Earlier where
  total _ _ := Nat.le_total ..

instance : IsTrans ScheduledMessage Earlier where
  trans _ _ _ := Nat.le_trans

-- An implementation: a list that is kept in order.
def sorted : BinaryHeap where
  Heap := { ms : List ScheduledMessage // ms.Pairwise Earlier }
  new  := ⟨[], .nil⟩
  push heap m := ⟨heap.val.orderedInsert Earlier m, heap.property.orderedInsert m _⟩
  pop
    | ⟨[], _⟩      => none
    | ⟨m :: ms, h⟩ => some (m, ⟨ms, (List.pairwise_cons.mp h).right⟩)
  toMultiset heap := heap.val
  toMultiset_new  := rfl
  toMultiset_push heap m := Multiset.coe_eq_coe.mpr <| List.perm_orderedInsert ..
  pop_none {heap} h := by
    obtain ⟨_ | _, _⟩ := heap
    case nil  => rfl
    case cons => contradiction
  pop_some {heap m heap'} h := by
    obtain ⟨_ | ⟨first, ms⟩, hp⟩ := heap
    case nil => contradiction
    case cons =>
      cases h
      refine ⟨rfl, fun m' hm => ?_⟩
      rcases List.mem_cons.mp hm with rfl | hm
      case inl => exact Nat.le_refl _
      case inr => exact (List.pairwise_cons.mp hp).left m' hm

end BinaryHeap

-- `gen_bool(p)` compares the next draw with a threshold, and for `p = 1.0` does without a draw.
inductive Rate
  | below (threshold : ℕ)
  | always
  deriving DecidableEq, Repr

namespace SmallRng

def next (rng : SmallRng) : ℕ × SmallRng :=
  (rng.draws 0, { draws := fun k => rng.draws (k + 1) })

def genBool (rng : SmallRng) : Rate → Bool × SmallRng
  | .below threshold => (decide (rng.next.1 < threshold), rng.next.2)
  | .always          => (true, rng)

end SmallRng

structure SimNetwork (H : BinaryHeap) where
  inFlight      : H.Heap
  partitions    : Finset (NodeId × NodeId)
  dropRate      : Rate
  duplicateRate : Rate
  maxDelayTicks : ℕ

namespace SimNetwork

variable {H : BinaryHeap}

def new : SimNetwork H where
  inFlight      := H.new
  partitions    := ∅
  dropRate      := .below 0
  duplicateRate := .below 0
  maxDelayTicks := 3

def partition (net : SimNetwork H) (sender receiver : NodeId) : SimNetwork H :=
  { net with partitions := insert (sender, receiver) net.partitions }

def healAll (net : SimNetwork H) : SimNetwork H :=
  { net with partitions := ∅ }

def genDelay (net : SimNetwork H) (rng : SmallRng) : ℕ × SmallRng :=
  if net.maxDelayTicks = 0 then (0, rng) else rng.genRange (net.maxDelayTicks + 1)

-- Two draws of a delay: `0..=max_delay_ticks`, and `1..=3` on top of it for a duplicate.
def send (net : SimNetwork H) (msg : Message) (currentTick : ℕ) (rng : SmallRng) :
    SimNetwork H × SmallRng :=
  if (msg.sender, msg.receiver) ∈ net.partitions then
    (net, rng)
  else
    let (dropped, rng) := rng.genBool net.dropRate
    if dropped then
      (net, rng)
    else
      let (delay, rng) := net.genDelay rng
      let inFlight := H.push net.inFlight { deliveryTick := currentTick + delay, msg }
      let (duplicated, rng) := rng.genBool net.duplicateRate
      if duplicated then
        let (extra, rng) := rng.genRange 3
        let extraDelay := delay + (1 + extra)
        ({ net with
          inFlight := H.push inFlight { deliveryTick := currentTick + extraDelay, msg } }, rng)
      else
        ({ net with inFlight }, rng)

-- At most `fuel` rounds of the loop of `drain_due`, which pops what it has peeked at.
def drain (currentTick : ℕ) : ℕ → H.Heap → List Message × H.Heap
  | 0, heap        => ([], heap)
  | fuel + 1, heap =>
    match H.pop heap with
    | none            => ([], heap)
    | some (m, heap') =>
      if m.deliveryTick ≤ currentTick then
        (m.msg :: (drain currentTick fuel heap').1, (drain currentTick fuel heap').2)
      else
        ([], heap)

-- As many rounds as there are messages.
def drainDue (net : SimNetwork H) (currentTick : ℕ) : List Message × SimNetwork H :=
  let (due, inFlight) := drain currentTick (H.toMultiset net.inFlight).card net.inFlight
  (due, { net with inFlight })

-- The messages in flight.
def messages (net : SimNetwork H) : Multiset Message :=
  (H.toMultiset net.inFlight).map (·.msg)

variable {net : SimNetwork H} {msg msg' : Message} {rng : SmallRng} {t fuel : ℕ} {heap : H.Heap}

theorem send_blocked (h : (msg.sender, msg.receiver) ∈ net.partitions) :
    net.send msg t rng = (net, rng) :=
  if_pos h

theorem send_partitions (net : SimNetwork H) (msg : Message) (t : ℕ) (rng : SmallRng) :
    (net.send msg t rng).1.partitions = net.partitions := by
  rw [send]
  split
  case isTrue => rfl
  case isFalse =>
    simp only
    split
    case isTrue => rfl
    case isFalse =>
      split
      case isTrue  => rfl
      case isFalse => rfl

-- What is sent is dropped, or put in flight once or twice.
theorem mem_messages_send (h : msg' ∈ (net.send msg t rng).1.messages) :
    msg' ∈ net.messages ∨ msg' = msg := by
  rw [send] at h
  split at h
  case isTrue => exact .inl h
  case isFalse =>
    simp only at h
    split at h
    case isTrue => exact .inl h
    case isFalse =>
      split at h
      case isTrue =>
        simp only [messages, H.toMultiset_push, Multiset.map_cons, Multiset.mem_cons] at h
        rcases h with h | h | h
        · exact .inr h
        · exact .inr h
        · exact .inl h
      case isFalse =>
        simp only [messages, H.toMultiset_push, Multiset.map_cons, Multiset.mem_cons] at h
        exact h.symm

theorem not_blocked_of_mem_send (h : msg' ∈ (net.send msg t rng).1.messages) :
    msg' ∈ net.messages ∨ (msg'.sender, msg'.receiver) ∉ net.partitions := by
  by_cases hb : (msg.sender, msg.receiver) ∈ net.partitions
  case pos =>
    rw [send_blocked hb] at h
    exact .inl h
  case neg =>
    rcases mem_messages_send h with h | rfl
    case inl => exact .inl h
    case inr => exact .inr hb

theorem drain_messages (t fuel : ℕ) (heap : H.Heap) : (H.toMultiset heap).map (·.msg) =
    ((drain t fuel heap).1 : Multiset Message) + (H.toMultiset (drain t fuel heap).2).map (·.msg) := by
  induction fuel generalizing heap
  case zero => exact (zero_add _).symm
  case succ fuel hi =>
    rw [drain]
    cases hp : H.pop heap
    case none => exact (zero_add _).symm
    case some r =>
      simp only
      split
      case isFalse => exact (zero_add _).symm
      case isTrue  =>
        rw [(H.pop_some hp).left, Multiset.map_cons, hi r.2, ← Multiset.cons_coe, Multiset.cons_add]

-- A message in flight is delivered or stays in flight.
theorem drainDue_messages (net : SimNetwork H) (t : ℕ) :
    net.messages = ((net.drainDue t).1 : Multiset Message) + (net.drainDue t).2.messages :=
  drain_messages ..

-- The loop ends because nothing that is left is due, not because it runs out of rounds.
theorem drain_complete (h : (H.toMultiset heap).card ≤ fuel) :
    ∀ m ∈ H.toMultiset (drain t fuel heap).2, t < m.deliveryTick := by
  induction fuel generalizing heap
  case zero =>
    have hz : H.toMultiset heap = 0 := Multiset.card_eq_zero.mp <| Nat.le_zero.mp h
    simp [drain, hz]
  case succ fuel hi =>
    rw [drain]
    cases hp : H.pop heap
    case none => simp [H.pop_none hp]
    case some r =>
      obtain ⟨hm, hl⟩ := H.pop_some hp
      simp only
      split
      case isTrue =>
        refine hi ?_
        rw [hm, Multiset.card_cons] at h
        omega
      case isFalse hd => exact fun m' hm' => Nat.lt_of_lt_of_le (Nat.lt_of_not_le hd) (hl m' hm')

end SimNetwork
end RaftRupee
