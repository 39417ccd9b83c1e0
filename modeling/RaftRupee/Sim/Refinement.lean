import RaftRupee.Lib.Replication.Safety
import RaftRupee.Sim.Sync
import RaftRupee.Sim.View

namespace RaftRupee.Cluster

open Replication

-- The complete logs behind a cluster, together with the log that each candidate asked for votes with.
structure Shadow extends Replication.State NodeId LogEntry where
  requested : NodeId → ℕ → List LogEntry

variable {C : Cluster} {w w' : World} {id : NodeId} {T T' i c c' : ℕ} {cs cs' : List Commit}
variable {m : Cause} {answers : Option Message} {k k' : Kernel} {as bs : List Action}
variable {log log' : RaftLog} {g g' : Shadow} {p : Packet} {e : LogEntry} {F : NodeId → List LogEntry}

abbrev quorums (C : Cluster) : QuorumSystem NodeId :=
  .majorities C.members

-- Some leader has committed up to `c`, in term `T` or before.
def Bound (cs : List Commit) (T c : ℕ) : Prop :=
  c = 0 ∨ ∃ cm ∈ cs, cm.term ≤ T ∧ c ≤ cm.index

namespace Shadow

-- The entry is one that some leader has committed, in term `T` or before.
def Decided (g : Shadow) (cs : List Commit) (T : ℕ) (e : LogEntry) : Prop :=
  0 < e.index ∧
    ∃ cm ∈ cs, cm.term ≤ T ∧ e.index ≤ cm.index ∧ (g.line cm.term)[e.index - 1]? = some e

-- So are the first `c` entries of a node.
def Settled (g : Shadow) (cs : List Commit) (id : NodeId) (c : ℕ) : Prop :=
  c = 0 ∨ ∃ cm ∈ cs, cm.term ≤ g.term id ∧ c ≤ cm.index ∧ c ≤ (g.log id).length ∧
    (g.log id).take c <+: g.line cm.term

-- What a message in flight says about the logs.
def Vouches (g : Shadow) (cs : List Commit) (p : Packet) : Prop :=
  let T := p.msg.term
  match p.msg.kind with
  | .requestVote i t =>
    let log := g.requested p.msg.sender T
    T ≤ g.term p.msg.sender ∧ Matches g.line log ∧ (∀ e ∈ log, e.term < T) ∧ i = log.length ∧
      t = lastTerm log
  | .requestVoteResponse true =>
    T ≤ g.term p.msg.receiver ∧ g.backs p.msg.sender T (g.requested p.msg.receiver T)
  | .appendEntries i t es c =>
    -- A leader whose `next_index` lies beyond its log sends an index that it has no term for.
    es = [] ∧ t = 0 ∧ 0 < i ∨
      ∃ k ≤ (g.line T).length, i ≤ k ∧ c ≤ k ∧ t = lastTerm ((g.line T).take i) ∧
        es = ((g.line T).take k).drop i ∧ Bound cs T c
  | .appendEntriesResponse true _ _ =>
    ∃ msg i t es c, p.answers = some msg ∧ msg.kind = .appendEntries i t es c ∧
      i + es.length ≤ g.acked p.msg.sender T
  | .installSnapshot i t _ _ _ =>
    i ≤ (g.line T).length ∧ t = lastTerm ((g.line T).take i) ∧ Bound cs T i
  | _ => True

def Allows (g : Shadow) (cs : List Commit) (T : ℕ) (answers : Option Message) : Action → Prop
  | .send msg => g.Vouches cs { msg, answers }
  | .apply es => ∀ e ∈ es, g.Decided cs T e
  | _         => False

-- The abstraction relation between what a crash leaves alone and the complete logs. The logs `F` are
-- settled, and stay where they are.
structure Refines (C : Cluster) (F : NodeId → List LogEntry) (g : Shadow) (w : World) : Prop where
  matching  : Matching g.toState
  safe      : Safe C.quorums g.toState
  term      : ∀ id ∈ C.members, g.term id = (w.disks id).currentTerm
  logs      : ∀ id ∈ C.members, ∃ log, (w.disks id).Holds log ∧ View log (g.log id) ∧
    g.Settled w.commits id log.firstIndex
  sent      : ∀ p ∈ w.network, g.Vouches w.commits p
  elected   : ∀ e ∈ w.elections, ∃ log, View e.log log ∧ log <+: g.line e.term ∧ lastTerm log = e.term
  lined     : ∀ T, g.line T ≠ [] → ∃ e ∈ w.elections, e.term = T
  committed : ∀ cm ∈ w.commits, g.Committed C.quorums cm.term cm.index
  applied   : ∀ a ∈ w.applied, g.Decided w.commits a.term a.entry
  floor     : ∀ id ∈ C.members, F id <+: g.log id ∧ g.Settled w.commits id (F id).length

structure Leads (g : Shadow) (id : NodeId) (k : Kernel) : Prop where
  line     : g.line k.currentTerm = g.log id
  nonempty : g.log id ≠ []
  own      : (g.log id).length ≤ g.acked id k.currentTerm
  peers    : ∀ peer n, k.matchIndex peer = some n →
    n ≤ k.log.firstIndex ∨ n ≤ g.acked peer k.currentTerm

structure Stands (g : Shadow) (id : NodeId) (k : Kernel) : Prop where
  positive  : 0 < k.currentTerm
  requested : g.requested id k.currentTerm = g.log id
  lt        : ∀ e ∈ g.log id, e.term < k.currentTerm
  votes     : ∀ v ∈ k.votesReceived, g.backs v k.currentTerm (g.log id)

-- What the memory of a node adds to its disk.
structure Replica (g : Shadow) (cs : List Commit) (id : NodeId) (k : Kernel) : Prop where
  term    : g.term id = k.currentTerm
  settled : g.Settled cs id k.commitIndex
  leads   : k.role = .leader → g.Leads id k
  stands  : k.role = .candidate → g.Stands id k

/-! ### Commit bounds -/

end Shadow

theorem Bound.mono (h : Bound cs T c) (hT : T ≤ T') (hc : c' ≤ c) : Bound cs T' c' := by
  rcases h with h | ⟨cm, hcm, ht, hle⟩
  · exact .inl (by omega)
  · exact .inr ⟨cm, hcm, ht.trans hT, hc.trans hle⟩

theorem Bound.subset (h : Bound cs T c) (hcs : cs ⊆ cs') : Bound cs' T c :=
  h.imp_right fun ⟨cm, hcm, h⟩ => ⟨cm, hcs hcm, h⟩

namespace Shadow

theorem Settled.of_le (h : g.Settled cs id c) (hc : c' ≤ c) : g.Settled cs id c' := by
  rcases h with h | ⟨cm, hcm, ht, hle, hl, hp⟩
  · exact .inl (by omega)
  · exact .inr ⟨cm, hcm, ht, hc.trans hle, hc.trans hl, (List.take_prefix_take_left hc).trans hp⟩

theorem Settled.subset (h : g.Settled cs id c) (hcs : cs ⊆ cs') : g.Settled cs' id c :=
  h.imp_right fun ⟨cm, hcm, h⟩ => ⟨cm, hcs hcm, h⟩

theorem Settled.bound (h : g.Settled cs id c) : Bound cs (g.term id) c :=
  h.imp_right fun ⟨cm, hcm, ht, hle, _⟩ => ⟨cm, hcm, ht, hle⟩

theorem Settled.le_length (h : g.Settled cs id c) : c ≤ (g.log id).length := by
  rcases h with rfl | ⟨_, _, _, _, hl, _⟩
  · exact Nat.zero_le _
  · exact hl

-- A node that follows the leader of its term may trust the leader's commit index.
theorem Refines.settled (hr : g.Refines C F w) (h : Bound w.commits T c) (ht : g.term id = T)
    (hp : (g.log id).take c <+: g.line T) (hl : c ≤ (g.log id).length) :
    g.Settled w.commits id c := by
  refine h.imp_right fun ⟨cm, hcm, hT, hle⟩ => ⟨cm, hcm, ht ▸ hT, hle, hl, ?_⟩
  have hlen : c ≤ ((g.log id).take c).length := (List.length_take_of_le hl).ge
  have := hr.safe.take_prefix_of_committed (hr.committed cm hcm) hT hp hle hlen
  rwa [List.take_take, Nat.min_self] at this

-- A node applies entries that are settled.
theorem Settled.decided (h : g.Settled cs id c) (hv : View log (g.log id)) (he : e ∈ log.rest)
    (hi : e.index ≤ c) : g.Decided cs (g.term id) e := by
  obtain ⟨h0, hj⟩ := hv.getElem?_of_mem he
  rcases h with rfl | ⟨cm, hcm, ht, hle, hl, hp⟩
  · omega
  · refine ⟨by omega, cm, hcm, ht, hi.trans hle, hp.getElem?_eq_some ?_⟩
    rw [List.getElem?_take_of_lt (by omega), hj]

/-! ### Steps of the shadow -/

structure Evolves (C : Cluster) (g g' : Shadow) : Prop where
  step      : Step C.quorums g.toState g'.toState
  requested : ∀ n T, T ≤ g.term n → g'.requested n T = g.requested n T

theorem Settled.take_prefix (h : g.Settled w.commits id c) (hr : g.Refines C F w)
    (he : g.Evolves C g') : (g.log id).take c <+: g'.log id := by
  rcases h with rfl | ⟨cm, hcm, ht, hle, hl, hp⟩
  · simp
  · exact hr.safe.take_prefix_step he.step (hr.committed cm hcm) ht hp hle hl

theorem Settled.evolve (h : g.Settled w.commits id c) (hr : g.Refines C F w) (he : g.Evolves C g') :
    g'.Settled w.commits id c := by
  have hkept := h.take_prefix hr he
  refine h.imp_right fun ⟨cm, hcm, ht, hle, hl, hp⟩ => ?_
  have hlen := hkept.length_le
  rw [List.length_take_of_le hl] at hlen
  refine ⟨cm, hcm, ht.trans <| he.step.term_le id, hle, hlen, ?_⟩
  exact hkept.take_eq hl ▸ hp.trans <| he.step.line_prefix _

-- What is settled can be taken as the floor.
theorem Refines.setFloor {F' : NodeId → List LogEntry} (h : g.Refines C F w)
    (hF : ∀ id ∈ C.members, F' id <+: g.log id ∧ g.Settled w.commits id (F' id).length) :
    g.Refines C F' w :=
  ⟨h.matching, h.safe, h.term, h.logs, h.sent, h.elected, h.lined, h.committed, h.applied, hF⟩

theorem Refines.floor_evolve (h : g.Refines C F w) (he : g.Evolves C g') (hid : id ∈ C.members) :
    F id <+: g'.log id ∧ g'.Settled w.commits id (F id).length := by
  obtain ⟨hp, hs⟩ := h.floor id hid
  refine ⟨?_, hs.evolve h he⟩
  exact List.prefix_iff_eq_take.mp hp ▸ hs.take_prefix h he

theorem Decided.evolve (h : g.Decided cs T e) (he : g.Evolves C g') : g'.Decided cs T e := by
  refine h.imp_right fun ⟨cm, hcm, ht, hle, hi⟩ => ⟨cm, hcm, ht, hle, ?_⟩
  exact (he.step.line_prefix _).getElem?_eq_some hi

theorem Decided.subset (h : g.Decided cs T e) (hcs : cs ⊆ cs') : g.Decided cs' T e :=
  h.imp_right fun ⟨cm, hcm, h⟩ => ⟨cm, hcs hcm, h⟩

theorem Vouches.subset (h : g.Vouches cs p) (hcs : cs ⊆ cs') : g.Vouches cs' p := by
  unfold Vouches at h ⊢
  split at h <;> simp_all
  case h_3 =>
    refine h.imp_right fun ⟨k, hk, hi, hc, ht, hes, hb⟩ => ⟨k, hk, hi, hc, ht, hes, hb.subset hcs⟩
  case h_5 => exact h.right.right.subset hcs

-- What has been said about the logs remains true.
theorem Vouches.evolve (h : g.Vouches cs p) (he : g.Evolves C g') : g'.Vouches cs p := by
  have hline := fun {k} => (he.step.line_prefix p.msg.term).take_eq_take (k := k)
  have hlen := (he.step.line_prefix p.msg.term).length_le
  unfold Vouches at h ⊢
  dsimp only at h ⊢
  split
  case h_1 hk =>
    simp only [hk] at h
    obtain ⟨hT, hm, h⟩ := h
    rw [he.requested _ _ hT]
    exact ⟨hT.trans <| he.step.term_le _, hm.mono he.step.line_prefix, h⟩
  case h_2 hk =>
    simp only [hk] at h
    rw [he.requested _ _ h.left]
    exact ⟨h.left.trans <| he.step.term_le _, he.step.backs_mono h.right⟩
  case h_3 hk =>
    simp only [hk] at h
    refine h.imp_right fun ⟨k, hk, hi, hc, ht, hes, hb⟩ => ⟨k, hk.trans hlen, hi, hc, ?_, ?_, hb⟩
    · rw [hline (hi.trans hk), ht]
    · rw [hline hk, hes]
  case h_4 hk =>
    simp only [hk] at h
    obtain ⟨msg, i, t, es, c, ha, hk, hle⟩ := h
    exact ⟨msg, i, t, es, c, ha, hk, hle.trans <| he.step.acked_le ..⟩
  case h_5 hk =>
    simp only [hk] at h
    exact ⟨h.left.trans hlen, by rw [hline h.left, h.right.left], h.right.right⟩
  case h_6 => trivial

-- The acting node writes its disk, or nothing.
theorem Refines.evolve {disk : StableDisk} (h : g.Refines C F w) (he : g.Evolves C g')
    (hlog : ∀ n ≠ id, g'.log n = g.log n) (hterm : ∀ n ≠ id, g'.term n = g.term n)
    (hline : ∀ T, g'.line T ≠ [] → g.line T ≠ []) (ht : g'.term id = disk.currentTerm)
    (hd : disk.Holds log) (hv : View log (g'.log id)) (hs : g'.Settled w.commits id log.firstIndex) :
    g'.Refines C F (w.setDisk id disk) where
  matching  := h.matching.step he.step
  safe      := h.safe.step h.matching he.step
  term n hn := by
    by_cases hi : n = id
    case pos => subst hi; simpa [World.setDisk] using ht
    case neg => simpa [World.setDisk, hi, hterm n hi] using h.term n hn
  logs n hn := by
    by_cases hi : n = id
    case pos =>
      subst hi
      exact ⟨log, by simpa [World.setDisk] using hd, hv, hs⟩
    case neg =>
      obtain ⟨log, hd, hv, hs⟩ := h.logs n hn
      exact ⟨log, by simpa [World.setDisk, hi] using hd, hlog n hi ▸ hv, hs.evolve h he⟩
  sent p hp := (h.sent p hp).evolve he
  elected e he' := by
    obtain ⟨log, hv, hp, ht⟩ := h.elected e he'
    exact ⟨log, hv, hp.trans <| he.step.line_prefix _, ht⟩
  lined T hT    := h.lined T <| hline T hT
  committed cm hcm := he.step.committed <| h.committed cm hcm
  applied a ha     := (h.applied a ha).evolve he
  floor n hn       := h.floor_evolve he hn

-- A node has become the leader of a term.
theorem Refines.elect {el : Election} (h : g.Refines C F w) (he : g.Evolves C g')
    (hlog : g'.log = g.log) (hterm : g'.term = g.term)
    (hline : ∀ T, g'.line T ≠ [] → g.line T ≠ [] ∨ T = el.term)
    (hel : ∃ log, View el.log log ∧ log <+: g'.line el.term ∧ lastTerm log = el.term) :
    g'.Refines C F { w with elections := w.elections ++ [el] } where
  matching  := h.matching.step he.step
  safe      := h.safe.step h.matching he.step
  term      := hterm ▸ h.term
  logs n hn := by
    obtain ⟨log, hd, hv, hs⟩ := h.logs n hn
    exact ⟨log, hd, hlog ▸ hv, hs.evolve h he⟩
  sent p hp := (h.sent p hp).evolve he
  elected e he' := by
    rcases List.mem_append.mp he' with he' | he'
    · obtain ⟨log, hv, hp, ht⟩ := h.elected e he'
      exact ⟨log, hv, hp.trans <| he.step.line_prefix _, ht⟩
    · cases List.mem_singleton.mp he'
      exact hel
  lined T hT := by
    rcases hline T hT with hT | rfl
    · obtain ⟨e, he, ht⟩ := h.lined T hT
      exact ⟨e, List.mem_append_left _ he, ht⟩
    · exact ⟨el, by simp, rfl⟩
  committed cm hcm := he.step.committed <| h.committed cm hcm
  applied a ha     := (h.applied a ha).evolve he
  floor n hn       := h.floor_evolve he hn

-- The leader of a term has moved its commit index.
theorem Refines.commit {cm : Commit} (h : g.Refines C F w)
    (hcm : g.Committed C.quorums cm.term cm.index) :
    g.Refines C F { w with commits := w.commits ++ [cm] } where
  matching  := h.matching
  safe      := h.safe
  term      := h.term
  logs n hn := by
    obtain ⟨log, hd, hv, hs⟩ := h.logs n hn
    exact ⟨log, hd, hv, hs.subset <| List.subset_append_left ..⟩
  sent p hp := (h.sent p hp).subset <| List.subset_append_left ..
  elected   := h.elected
  lined     := h.lined
  committed := by
    simp only [List.mem_append, List.mem_singleton]
    rintro cm' (hm | rfl)
    · exact h.committed cm' hm
    · exact hcm
  applied a ha := (h.applied a ha).subset <| List.subset_append_left ..
  floor n hn   := (h.floor n hn).imp_right fun hs => hs.subset <| List.subset_append_left ..

theorem Replica.subset (h : g.Replica cs id k) (hcs : cs ⊆ cs') : g.Replica cs' id k :=
  ⟨h.term, h.settled.subset hcs, h.leads, h.stands⟩

theorem Replica.evolve (h : g.Replica w.commits id k) (hr : g.Refines C F w) (he : g.Evolves C g')
    (hlog : g'.log id = g.log id) (hterm : g'.term id = g.term id)
    (hline : k.role = .leader → g'.line k.currentTerm = g.line k.currentTerm) :
    g'.Replica w.commits id k where
  term      := hterm.trans h.term
  settled   := h.settled.evolve hr he
  leads hl  := by
    have hleads := h.leads hl
    refine ⟨(hline hl).trans <| hleads.line.trans hlog.symm, hlog ▸ hleads.nonempty, ?_, fun peer n hn => ?_⟩
    · exact hlog ▸ hleads.own.trans <| he.step.acked_le ..
    · exact (hleads.peers peer n hn).imp_right fun h => h.trans <| he.step.acked_le ..
  stands hc := by
    have hs := h.stands hc
    refine ⟨hs.positive, ?_, hlog ▸ hs.lt, fun v hv => hlog ▸ he.step.backs_mono (hs.votes v hv)⟩
    rw [he.requested _ _ h.term.ge, hlog, hs.requested]

end Shadow
end RaftRupee.Cluster
