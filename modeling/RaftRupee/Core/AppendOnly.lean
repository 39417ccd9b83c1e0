import RaftRupee.Core.HardState
import RaftRupee.Core.Invocations

namespace RaftRupee

variable {m : Cause} {k k' : Kernel} {as : List Action} {es : List LogEntry} {e : LogEntry}
variable {log log' log'' : RaftLog} {i t T n : ℕ}

theorem Consecutive.filter (h : Consecutive i es) (n : ℕ) :
    es.filter (n < ·.index) = es.drop (n + 1 - i) := by
  induction es generalizing i
  case nil => simp
  case cons e es hi =>
    obtain ⟨he, hes⟩ := h
    rw [List.filter_cons]
    by_cases hn : n < e.index
    case pos =>
      rw [if_pos (decide_eq_true hn), hi hes, show n + 1 - i = 0 by omega,
        show n + 1 - (i + 1) = 0 by omega]
      rfl
    case neg =>
      rw [if_neg (by simpa using hn), hi hes, show n + 1 - i = n + 1 - (i + 1) + 1 by omega,
        List.drop_succ_cons]

-- What the later log has above its base is what the earlier one has there, and then new entries of
-- term `T`.
structure AppendOnly (T : ℕ) (log log' : RaftLog) : Prop where
  base_le : log.firstIndex ≤ log'.firstIndex
  entries : ∃ new, log'.rest = log.rest.filter (log'.firstIndex < ·.index) ++ new ∧
    Consecutive (max log.lastIndex log'.firstIndex + 1) new ∧ ∀ e ∈ new, e.term = T

namespace AppendOnly

-- The indices of the new entries follow from the log being contiguous.
theorem of_entries (new : List LogEntry) (h : log.Contiguous) (h' : log'.Contiguous)
    (hb : log.firstIndex ≤ log'.firstIndex)
    (he : log'.rest = log.rest.filter (log'.firstIndex < ·.index) ++ new)
    (ht : ∀ e ∈ new, e.term = T) : AppendOnly T log log' := by
  refine ⟨hb, new, he, ?_, ht⟩
  have hnew : Consecutive (log'.firstIndex + 1) (log.rest.filter (log'.firstIndex < ·.index) ++ new) :=
    he ▸ h'
  rw [Consecutive.filter h, Consecutive.append, List.length_drop] at hnew
  have hl := h.lastIndex_eq
  convert hnew.right using 1
  omega

theorem refl (h : log.Contiguous) : AppendOnly T log log := by
  refine of_entries [] h h le_rfl ?_ (by simp)
  simp [Consecutive.filter h]

theorem append (h : log.Contiguous) (hi : e.index = log.lastIndex + 1) (ht : e.term = T) :
    AppendOnly T log (log.append [e]) := by
  refine of_entries [e] h (h.append ⟨hi, trivial⟩) le_rfl ?_ (by simpa using ht)
  rw [RaftLog.firstIndex_append, Consecutive.filter h, Nat.sub_self, List.drop_zero]
  rfl

theorem compact (h : log.Contiguous) : AppendOnly T log (log.compact i t) := by
  have hb := log.firstIndex_compact i t
  refine of_entries [] h h.compact (by omega) ?_ (by simp)
  rw [hb, Consecutive.filter h, RaftLog.rest_compact, List.append_nil,
    show max log.firstIndex i + 1 - (log.firstIndex + 1) = i - log.firstIndex by omega]

theorem trans (h : log.Contiguous) (h₁ : AppendOnly T log log') (h₂ : AppendOnly T log' log'')
    (h'' : log''.Contiguous) : AppendOnly T log log'' := by
  obtain ⟨new₁, he₁, _, ht₁⟩ := h₁.entries
  obtain ⟨new₂, he₂, _, ht₂⟩ := h₂.entries
  refine of_entries (new₁.filter (log''.firstIndex < ·.index) ++ new₂) h h''
    (h₁.base_le.trans h₂.base_le) ?_ fun e he => ?_
  case refine_1 =>
    have hb := h₂.base_le
    rw [he₂, he₁, List.filter_append, List.filter_filter, List.append_assoc]
    congr 1
    refine List.filter_congr fun e _ => ?_
    simp only [← Bool.decide_and, decide_eq_decide]
    omega
  case refine_2 =>
    rcases List.mem_append.mp he with he | he
    · exact ht₁ e (List.mem_filter.mp he).left
    · exact ht₂ e he

end AppendOnly

-- Whatever leaves a node in charge only appends to its log.
theorem Move.appendOnly (h : Move m k k' as) (hc : k.log.Contiguous) (hr : k'.role = .leader) :
    k'.log.Contiguous ∧ AppendOnly k'.currentTerm k.log k'.log := by
  have same : AppendOnly k.currentTerm k.log k.log := .refl hc
  cases h
  case elect he _ _ =>
    subst he
    exact ⟨hc.append ⟨rfl, trivial⟩, .append hc rfl rfl⟩
  case lone => exact ⟨hc.append ⟨rfl, trivial⟩, .append hc rfl rfl⟩
  case propose hi ht he _ =>
    subst he
    exact ⟨hc.append ⟨hi, trivial⟩, .append hc hi ht⟩
  case proposeAlone hi ht _ ha =>
    rw [ha.log_eq, ha.currentTerm_eq]
    exact ⟨hc.append ⟨hi, trivial⟩, .append hc hi ht⟩
  case confirm ha =>
    rw [ha.log_eq, ha.currentTerm_eq]
    exact ⟨hc, same⟩
  case compact   => exact ⟨hc.compact, .compact hc⟩
  case idle      => exact ⟨hc, same⟩
  case vote      => exact ⟨hc, same⟩
  case collect   => exact ⟨hc, same⟩
  case replicate => exact ⟨hc, same⟩
  -- The other moves lead to another role.
  case accept hf => rw [hf.role_eq] at hr; contradiction
  all_goals contradiction

theorem Call.appendOnly (h : Call m k k' as) (hc : k.log.Contiguous) (hr : k'.role = .leader) :
    k'.log.Contiguous ∧ AppendOnly k'.currentTerm k.log k'.log := by
  cases h
  case same h => exact h.appendOnly hc hr
  case later hm hp _ h =>
    subst hm
    exact absurd hr <| h.not_leader_of_bump hp

variable {node : RaftNode} {cs : List Invocation} {rs : List Returned}

-- At any two moments of a leader's term, the later log extends the earlier one.
theorem leader_append_only (hc : node.log.Contiguous) (h : node.invokeAll cs = some rs)
    (hl : ∀ r ∈ rs, r.node.role = .leader ∧ r.node.currentTerm = T) :
    (∀ r ∈ rs, r.node.log.Contiguous) ∧
      (node.log :: rs.map (·.node.log)).Pairwise (AppendOnly T) := by
  induction cs generalizing node rs
  case nil =>
    cases h
    simp
  case cons c cs hi =>
    obtain ⟨o, rest, ho, hrest, rfl⟩ := RaftNode.invokeAll_cons h
    rw [List.forall_mem_cons] at hl
    obtain ⟨⟨hr, ht⟩, hl⟩ := hl
    obtain ⟨hc', ha⟩ := (RaftNode.invoke_call ho).appendOnly hc hr
    have ha : AppendOnly T node.log o.1.log := ht ▸ ha
    obtain ⟨hcs, hp⟩ := hi hc' hrest hl
    refine ⟨List.forall_mem_cons.mpr ⟨hc', hcs⟩, List.pairwise_cons.mpr ⟨?_, hp⟩⟩
    refine List.forall_mem_cons.mpr ⟨ha, fun log hm => ?_⟩
    obtain ⟨r, hr, rfl⟩ := List.mem_map.mp hm
    exact ha.trans hc ((List.pairwise_cons.mp hp).left _ hm) (hcs r hr)

-- A node without peers elects itself, commits and compacts a proposal, and goes on with the next one.
theorem leader_append_only_alone : ∃ (node : RaftNode) (rs : List Returned),
    rs.map (fun r => (r.node.log.firstIndex, r.node.log.rest.map (·.index))) =
      [(0, [1]), (0, [1, 2]), (1, [2]), (1, [2, 3])] ∧
    (∀ r ∈ rs, r.node.log.Contiguous) ∧
      (node.log :: rs.map (·.node.log)).Pairwise (AppendOnly 1) := by
  let config : Config :=
    { id                     := 1
      peers                  := []
      electionTimeoutTicks   := 2
      heartbeatIntervalTicks := 1
      rngSeed                := { draws := fun _ => 0 }
      heartbeat_lt           := by decide }
  let node : RaftNode := (RaftNode.new config).tick.1
  let cs : List Invocation := [.tick, .propose [7], .compactLogs 1 1 [], .propose [8]]
  have hsome : (node.invokeAll cs).isSome := by decide +kernel
  obtain ⟨rs, hrs⟩ := Option.isSome_iff_exists.mp hsome
  have hvalue : (node.invokeAll cs).map (·.map fun r =>
      (r.node.log.firstIndex, r.node.log.rest.map (·.index))) =
      some [(0, [1]), (0, [1, 2]), (1, [2]), (1, [2, 3])] := by decide +kernel
  have hleader : (node.invokeAll cs).map (·.all fun r =>
      r.node.role = .leader ∧ r.node.currentTerm = 1) = some true := by decide +kernel
  rw [hrs, Option.map_some, Option.some.injEq] at hvalue hleader
  have hcontiguous : node.log.Contiguous := trivial
  exact ⟨node, rs, hvalue, leader_append_only hcontiguous hrs <| by simpa using hleader⟩

end RaftRupee
