import MiniTcg.Game.Greedy
import MiniTcg.Game.Playout

/-!
# What the AI plays first

The scores of `ai_eval_card` are an order of aims: heal when low, buff against a shield,
poison a healthy player, raise a shield, strike, and any other card last. Every card the
AI plays in a match serves the first of these aims it can pay for.
-/
namespace MiniTcg.Game

open MiniTcg.Wire

/-- What a card does for the AI, the least urgent first. -/
inductive Aim
  | rest
  | strike
  | cover
  | infect
  | prepare
  | mend
  deriving DecidableEq

def Aim.rank : Aim → ℕ
  | .rest => 0
  | .strike => 1
  | .cover => 2
  | .infect => 3
  | .prepare => 4
  | .mend => 5

def aim (c : Core) (card : CardDef) : Aim :=
  match card.kind with
  | .atk => .strike
  | .heal => if c.aiHp.toInt < 10 then .mend else .rest
  | .shield => if c.aiShield.toInt = 0 then .cover else .rest
  | .buff => if 0 < c.pShield.toInt then .prepare else .rest
  | .poison => if c.pPoison = 0 then .infect else .rest

/-- The points an aim scores before the cost. -/
def Aim.bonus : Aim → ℤ
  | .rest => 0
  | .strike => 0
  | .cover => 20
  | .infect => 30
  | .prepare => 40
  | .mend => 100

section Score
variable {c : Core} {card other : CardDef}

theorem aiEvalCard_aim (c : Core) (hm : card ∈ gCards) :
    aiEvalCard c card = (aim c card).bonus +
      (if card.kind = .atk then card.value.toInt else 0) - card.cost.toNat * 2 := by
  have hkind := kind_of_mem hm
  simp only [aiEvalCard, aim, hkind]
  cases card.kind with
  | atk => simp [Aim.bonus]
  | heal =>
    by_cases hlow : c.aiHp.toInt < 10
    · simp [hlow, Aim.bonus]
    · simp [hlow, Aim.bonus]
  | shield =>
    by_cases hbare : c.aiShield.toInt = 0
    · simp [hbare, Aim.bonus]
    · simp [hbare, Aim.bonus]
  | buff =>
    by_cases hguard : 0 < c.pShield.toInt
    · simp [hguard, Aim.bonus]
    · simp [hguard, Aim.bonus]
  | poison =>
    by_cases hclean : c.pPoison = 0
    · simp [hclean, Aim.bonus]
    · simp [hclean, Aim.bonus]

theorem aim_strike : aim c card = .strike ↔ card.kind = .atk := by
  unfold aim
  cases card.kind with
  | atk => exact iff_of_true rfl rfl
  | heal | shield | buff | poison =>
    simp only [reduceCtorEq, iff_false]
    split <;> exact fun h => by cases h

theorem gCards_costs : ∀ card ∈ gCards, 1 ≤ card.cost.toNat ∧ card.cost.toNat ≤ 3 ∧
    (card.kind = .atk → 1 ≤ card.value.toInt - card.cost.toNat * 2 ∧
      card.value.toInt - card.cost.toNat * 2 ≤ 2) := by decide

/-- The scores of two aims never meet. -/
theorem aiEvalCard_lt (hm : card ∈ gCards) (ho : other ∈ gCards)
    (h : (aim c other).rank < (aim c card).rank) : aiEvalCard c other < aiEvalCard c card := by
  obtain ⟨hlow, hhigh, hstrike⟩ := gCards_costs card hm
  obtain ⟨olow, ohigh, ostrike⟩ := gCards_costs other ho
  rw [aiEvalCard_aim c hm, aiEvalCard_aim c ho]
  rw [← aim_strike (c := c)] at hstrike ostrike
  simp only [← aim_strike (c := c)]
  generalize aim c card = a at h hstrike ⊢
  generalize aim c other = b at h ostrike ⊢
  cases a <;> cases b <;>
    simp only [Aim.rank, Aim.bonus, reduceCtorEq, if_true, if_false, forall_const] at h hstrike ostrike ⊢ <;>
    omega

end Score

/-! ### The AI's choice -/

/-- No card the AI can pay for serves a more urgent aim. None that serves the same aim is
cheaper, unless the aim is to attack; there none has a larger value less twice its cost. -/
structure Preferred (c : Core) (hand : Hand) (card : CardDef) : Prop where
  urgent : ∀ j other, Eligible c hand j other → (aim c other).rank ≤ (aim c card).rank
  cheap : ∀ j other, Eligible c hand j other → aim c other = aim c card → aim c card ≠ .strike →
    card.cost ≤ other.cost
  strong : ∀ j other, Eligible c hand j other → aim c other = .strike → aim c card = .strike →
    other.value.toInt - other.cost.toNat * 2 ≤ card.value.toInt - card.cost.toNat * 2

theorem Eligible.mem {c : Core} {hand : Hand} {j : ℕ} {card : CardDef}
    (h : Eligible c hand j card) : card ∈ gCards := (getCardDef_mem h.known).1

theorem Greedy.preferred {c : Core} {hand : Hand} {i : ℕ} {card : CardDef}
    (h : Greedy c hand i card) : Preferred c hand card := by
  have hm := h.eligible.mem
  refine ⟨fun j other ho => ?_, fun j other ho hsame hno => ?_, fun j other ho hother hself => ?_⟩
  · by_contra hlt
    have hscore := aiEvalCard_lt (c := c) ho.mem hm (by omega)
    have hbest := h.best j other ho
    omega
  · have hbest := h.best j other ho
    have hatk : ¬ card.kind = .atk := fun hk => hno (aim_strike.mpr hk)
    have hatk' : ¬ other.kind = .atk := fun hk => hno (hsame ▸ aim_strike.mpr hk)
    rw [aiEvalCard_aim c ho.mem, aiEvalCard_aim c hm, hsame, if_neg hatk, if_neg hatk'] at hbest
    rw [UInt8.le_iff_toNat_le]
    omega
  · have hbest := h.best j other ho
    rw [aiEvalCard_aim c ho.mem, aiEvalCard_aim c hm, hother, hself, if_pos (aim_strike.mp hself),
      if_pos (aim_strike.mp hother)] at hbest
    omega

/-! ### The AI's plays of a match -/

/-- Every AI play of the history is the choice of `process_ai_turn`. -/
def AiChose (t : List Event) : Prop :=
  ∀ p, .play p ∈ t → p.side = .ai → p.rc = 0 ∧
    ∃ card, p.card = some card ∧ Greedy p.before p.hand p.idx.toNat card

section Chose
variable {g : Match}

theorem AiChose.cons {e : Event} {t : List Event} (h : AiChose t)
    (he : ∀ p, e = .play p → p.side = .ai → p.rc = 0 ∧
      ∃ card, p.card = some card ∧ Greedy p.before p.hand p.idx.toNat card) : AiChose (e :: t) := by
  intro p hp
  rcases List.mem_cons.mp hp with heq | hold
  · exact he p heq.symm
  · exact h p hold

theorem aiChose_aiPlay {i : ℕ} (h : AiChose g.trace) (hb : aiBest g.st.toCore g.hand = some i) :
    AiChose (aiPlay g i).trace := by
  obtain ⟨h8, _, card, hp⟩ := aiBest_playable hb
  have hi : (UInt8.ofNat i).toNat = i := UInt8.toNat_ofNat_of_lt' (by simp [UInt8.size]; omega)
  refine h.cons fun p heq _ => ?_
  cases heq
  refine ⟨(handlePlayCard_ok .ai hp).1, ?_⟩
  rcases aiBest_spec g.st.toCore g.hand with ⟨j, best, hj, hg⟩ | ⟨hnone, _⟩
  · obtain rfl : i = j := Option.some.inj (hb.symm.trans hj)
    refine ⟨best, ?_, ?_⟩
    · show getCardDef (g.hand.card (UInt8.ofNat i).toNat) = some best
      rw [hi]
      exact hg.eligible.known
    · show Greedy g.st.toCore g.hand (UInt8.ofNat i).toNat best
      rw [hi]
      exact hg
  · rw [hnone] at hb
    cases hb

theorem aiChose_aiLoopUpTo (k : ℕ) (h : AiChose g.trace) : AiChose (aiLoopUpTo k g).trace := by
  induction k generalizing g with
  | zero => exact h
  | succ k ih =>
    rw [aiLoopUpTo]
    split
    · cases hb : aiBest g.st.toCore g.hand with
      | none => exact h
      | some i => exact ih (aiChose_aiPlay h hb)
    · exact h

theorem aiChose_phaseEnd (h : AiChose g.trace) : AiChose (phaseEnd g).trace := by
  have htick : AiChose (phaseTick g).trace := h.cons fun p heq => by cases heq
  simp only [phaseEnd]
  split
  · exact htick
  · exact htick.cons fun p heq => by cases heq

theorem aiChose_settle (h : AiChose g.trace) : AiChose (settle g).trace := by
  have hloop : AiChose (aiLoop g).trace := aiChose_aiLoopUpTo 8 h
  rw [settle]
  split
  · simp only [processAiTurn]
    split
    · exact aiChose_phaseEnd hloop
    · exact hloop
  · exact h

theorem aiChose_onPacket (h : AiChose g.trace) (p : Packet) : AiChose (onPacket g p).trace := by
  rw [onPacket]
  split
  · exact h
  · split
    · split
      · split
        · exact h.cons fun p heq hside => by cases heq; cases hside
        · exact h
      · exact h
    · split
      · exact aiChose_settle (aiChose_phaseEnd h)
      · exact h

end Chose

theorem aiChose_playout (rng : ℕ → ℕ) (ps : List Packet) : AiChose (playout rng ps).trace := by
  induction ps using List.reverseRecOn with
  | nil =>
    have hnone : AiChose [] := fun p hp => absurd hp List.not_mem_nil
    exact hnone.cons fun p heq => by cases heq
  | append_singleton ps p ih =>
    rw [playout_append]
    exact aiChose_onPacket ih p

/-- Every AI play of the history is accepted and preferred. -/
def AiPrefers (t : List Event) : Prop :=
  ∀ p, .play p ∈ t → p.side = .ai →
    p.rc = 0 ∧ ∃ card, p.card = some card ∧ Preferred p.before p.hand card

/-- In every match, whatever the draws and the packets, each card the AI plays serves the
most urgent aim among those it could pay for at that moment, at the least cost if it is no
attack and with the largest value less twice its cost if it is one. -/
theorem ai_prefers (rng : ℕ → ℕ) (ps : List Packet) : AiPrefers (playout rng ps).trace := by
  intro p hp hside
  obtain ⟨hrc, card, hcard, hgreedy⟩ := aiChose_playout rng ps p hp hside
  exact ⟨hrc, card, hcard, hgreedy.preferred⟩

end MiniTcg.Game
