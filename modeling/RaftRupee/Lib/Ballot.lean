import RaftRupee.Lib.Quorum

-- What a voter has on disk: its term, and whom it has voted for in that term.
abbrev Ballot (N : Type*) := ℕ × Option N

-- To a later term, or to a vote that was still to be given.
def Ballot.Onward {N : Type*} (b b' : Ballot N) : Prop :=
  b.1 < b'.1 ∨ b.1 = b'.1 ∧ (b.2 = none ∨ b.2 = b'.2)

theorem Ballot.Onward.refl {N : Type*} (b : Ballot N) : b.Onward b :=
  .inr ⟨rfl, .inr rfl⟩

theorem Ballot.Onward.le {N : Type*} {b b' : Ballot N} (h : b.Onward b') : b.1 ≤ b'.1 :=
  h.elim le_of_lt fun h => h.left.le

theorem Ballot.Onward.trans {N : Type*} {b b' b'' : Ballot N} (h : b.Onward b') (h' : b'.Onward b'') :
    b.Onward b'' := by
  rcases h with hlt | ⟨ht, hv⟩ <;> rcases h' with hlt' | ⟨ht', hv'⟩
  · exact .inl (hlt.trans hlt')
  · exact .inl (ht' ▸ hlt)
  · exact .inl (ht ▸ hlt')
  · refine .inr ⟨ht.trans ht', ?_⟩
    rcases hv with hv | hv
    · exact .inl hv
    · exact hv ▸ hv'

-- The ballots of all voters, and the votes that others know of: of a voter, in a term, for a candidate.
structure Poll (N : Type*) where
  ballots : N → Ballot N
  Cast    : N → ℕ → N → Prop

namespace Poll

variable {N : Type*} {p p' : Poll N} {v c c' : N} {T : ℕ} {Q : QuorumSystem N}

-- No ballot is taken back, and what is cast is on the ballot by then.
structure Next (p p' : Poll N) : Prop where
  onward : ∀ v, (p.ballots v).Onward (p'.ballots v)
  casts  : ∀ v T c, p'.Cast v T c → p.Cast v T c ∨ p.ballots v = (T, some c)

-- A vote that is known stays on the ballot until the term is over, and nobody has voted twice.
structure Fair (p : Poll N) : Prop where
  kept   : ∀ {v T c}, p.Cast v T c → T < (p.ballots v).1 ∨ p.ballots v = (T, some c)
  unique : ∀ {v T c c'}, p.Cast v T c → p.Cast v T c' → c = c'

def Wins (p : Poll N) (Q : QuorumSystem N) (T : ℕ) (c : N) : Prop :=
  ∃ q ∈ Q, ∀ v ∈ q, p.Cast v T c

theorem Fair.next (h : p.Fair) (hn : p.Next p') : p'.Fair := by
  have on {v T c c'} (hc : p.Cast v T c) (hb : p.ballots v = (T, some c')) : c = c' := by
    rcases h.kept hc with hlt | he
    · exact absurd (congrArg Prod.fst hb) hlt.ne'
    · simpa [he] using hb
  constructor
  case kept =>
    intro v T c hc
    have hold : T < (p.ballots v).1 ∨ p.ballots v = (T, some c) := (hn.casts v T c hc).elim h.kept .inr
    rcases hold with hlt | he
    · exact .inl (hlt.trans_le (hn.onward v).le)
    · rcases hn.onward v with hlt | ⟨ht, hv⟩
      · exact .inl (by simpa [he] using hlt)
      · simp only [he, reduceCtorEq, false_or] at ht hv
        exact .inr (Prod.ext ht.symm hv.symm)
  case unique =>
    intro v T c c' hc hc'
    rcases hn.casts v T c hc with hc | hb <;> rcases hn.casts v T c' hc' with hc' | hb'
    · exact h.unique hc hc'
    · exact on hc hb'
    · exact (on hc' hb).symm
    · simpa [hb] using hb'

-- Two quorums share a voter, and so nobody else wins the term.
theorem Fair.winner_unique (h : p.Fair) (hw : p.Wins Q T c) (hw' : p.Wins Q T c') : c = c' := by
  obtain ⟨q, hq, hc⟩ := hw
  obtain ⟨q', hq', hc'⟩ := hw'
  obtain ⟨v, hv, hv'⟩ := Q.inter hq hq'
  exact h.unique (hc v hv) (hc' v hv')

theorem Wins.mono (h : p.Wins Q T c) (hm : ∀ v, p.Cast v T c → p'.Cast v T c) : p'.Wins Q T c :=
  h.imp fun _ => .imp_right fun hv v hq => hm v (hv v hq)

end Poll
