import MiniTcg.Lib.Argmax
import MiniTcg.Game.Invariant

/-!
# The AI's turn is greedy

What `process_ai_turn` plays: in each round the first slot of the highest score
among those it can pay for, until the game is over or no such slot is left.
-/
namespace MiniTcg.Game

/-- Slot `i` holds this card, and there is mana for it. -/
structure Eligible (c : Core) (hand : Hand) (i : ℕ) (card : CardDef) : Prop where
  slot : i < hand.n.toNat
  known : getCardDef (hand.card i) = some card
  afford : card.cost ≤ c.mana

/-- The card's score is the highest of the eligible ones, and no slot before it
has the same. -/
structure Greedy (c : Core) (hand : Hand) (i : ℕ) (card : CardDef) : Prop where
  eligible : Eligible c hand i card
  best : ∀ j other, Eligible c hand j other → aiEvalCard c other ≤ aiEvalCard c card
  first : ∀ j other, Eligible c hand j other → aiEvalCard c other = aiEvalCard c card → i ≤ j

/-! ### The scan -/

/-- The score of an eligible slot. -/
def slotScore (c : Core) (hand : Hand) (i : ℕ) : Option ℤ :=
  ((getCardDef (hand.card i)).filter (fun card => card.cost ≤ c.mana)).map (aiEvalCard c)

theorem slotScore_eq_some {c : Core} {hand : Hand} {i : ℕ} {s : ℤ} :
    slotScore c hand i = some s ↔
      ∃ card, getCardDef (hand.card i) = some card ∧ card.cost ≤ c.mana ∧ aiEvalCard c card = s := by
  simp [slotScore, Option.filter_eq_some_iff, and_assoc]

/-- A score never falls to the sentinel. -/
theorem aiEvalCard_gt (c : Core) {card : CardDef} (h : card ∈ gCards) :
    -9999 < aiEvalCard c card := by
  obtain ⟨_, _, hcost, hval, _, _⟩ := gCards_sane card h
  unfold aiEvalCard
  cases CardType.ofByte card.type with
  | none =>
    simp only
    split_ifs <;> omega
  | some t =>
    cases t with
    | atk =>
      simp only
      split_ifs <;> omega
    | heal =>
      simp only
      split_ifs <;> omega
    | shield =>
      simp only
      split_ifs <;> omega
    | buff =>
      simp only
      split_ifs <;> omega
    | poison =>
      simp only
      split_ifs <;> omega

theorem aiConsider_keep (c : Core) (hand : Hand) :
    aiConsider c hand = Argmax.keep (slotScore c hand) := by
  funext best i
  unfold aiConsider Argmax.keep slotScore
  cases hk : getCardDef (hand.card i) with
  | none => simp
  | some card =>
    have hz : hand.card i ≠ 0 := by
      intro hz
      rw [hz, getCardDef_zero] at hk
      cases hk
    by_cases hc : card.cost ≤ c.mana
    · simp [hz, hc, Option.filter]
    · simp [hc, Option.filter]

/-- The scan finds the greedy slot, or there is none to find. -/
theorem aiBest_spec (c : Core) (hand : Hand) :
    (∃ i card, aiBest c hand = some i ∧ Greedy c hand i card) ∨
      (aiBest c hand = none ∧ ∀ j card, ¬ Eligible c hand j card) := by
  have hbot : ∀ i s, slotScore c hand i = some s → -9999 < s := by
    intro i s hs
    obtain ⟨card, hk, _, rfl⟩ := slotScore_eq_some.mp hs
    exact aiEvalCard_gt c (getCardDef_mem hk).1
  have hscore : ∀ {j card}, Eligible c hand j card →
      slotScore c hand j = some (aiEvalCard c card) := fun ho =>
    slotScore_eq_some.mpr ⟨_, ho.known, ho.afford, rfl⟩
  unfold aiBest
  rw [aiConsider_keep]
  rcases Argmax.keep_range hbot hand.n.toNat with ⟨i, s, heq, hi, hmax⟩ | ⟨heq, hnone⟩
  · obtain ⟨card, hk, hc, rfl⟩ := slotScore_eq_some.mp hmax.score
    refine Or.inl ⟨i, card, by rw [heq], ⟨hi, hk, hc⟩, ?_, ?_⟩
    · exact fun j other ho => (hmax.max j ho.slot _ (hscore ho)).1
    · exact fun j other ho => (hmax.max j ho.slot _ (hscore ho)).2
  · refine Or.inr ⟨by rw [heq], fun j card ho => ?_⟩
    have hs := hscore ho
    rw [hnone j ho.slot] at hs
    cases hs

/-! ### The loop -/

/-- The `while` loop of `process_ai_turn` run to its end: the slots it plays and
the match it leaves. -/
inductive AiRun : Match → List ℕ → Match → Prop
  | ended {g : Match} (stop : ¬ (g.st.phase = .main ∧ g.st.gameOver = 0)) : AiRun g [] g
  | done {g : Match} (main : g.st.phase = .main) (live : g.st.gameOver = 0)
      (best : aiBest g.st.toCore g.hand = none) : AiRun g [] g
  | play {g g' : Match} {i : ℕ} {slots : List ℕ} (main : g.st.phase = .main)
      (live : g.st.gameOver = 0) (best : aiBest g.st.toCore g.hand = some i)
      (rest : AiRun (aiPlay g i) slots g') : AiRun g (i :: slots) g'

/-- The loop ends, and with what `aiLoop` computes. -/
theorem aiRun_aiLoop (g : Match) : ∃ slots, AiRun g slots (aiLoop g) := by
  induction hk : g.hand.live using Nat.strong_induction_on generalizing g with
  | h k ih =>
    rw [aiLoop_eq]
    split
    · rename_i hguard
      cases hb : aiBest g.st.toCore g.hand with
      | none => exact ⟨[], .done hguard.1 hguard.2 hb⟩
      | some i =>
        -- the slot played is empty afterwards
        obtain ⟨h8, hz, _⟩ := aiBest_playable hb
        have hl : (aiPlay g i).hand.live < k := hk ▸ Hand.live_clear h8 hz
        obtain ⟨slots, hrun⟩ := ih _ hl (aiPlay g i) rfl
        exact ⟨i :: slots, .play hguard.1 hguard.2 hb hrun⟩
    · exact ⟨[], .ended ‹_›⟩

/-- What one round of the loop plays. -/
structure GreedyPlay (g : Match) (i : ℕ) : Prop where
  main : g.st.phase = .main
  live : g.st.gameOver = 0
  greedy : ∃ card, Greedy g.st.toCore g.hand i card
  accepted : (handlePlayCard g.st g.hand .ai (UInt8.ofNat i)).2 = 0

/-- The cost of the card in slot `i`. -/
def Hand.cost (h : Hand) (i : ℕ) : ℕ := ((getCardDef (h.card i)).map (·.cost.toNat)).getD 0

section Run
variable {g g' : Match} {slots : List ℕ}

theorem aiBest_play {i : ℕ} (main : g.st.phase = .main) (live : g.st.gameOver = 0)
    (hb : aiBest g.st.toCore g.hand = some i) : GreedyPlay g i := by
  obtain ⟨_, _, card, hp⟩ := aiBest_playable hb
  rcases aiBest_spec g.st.toCore g.hand with ⟨j, other, hj, hg⟩ | ⟨hnone, _⟩
  · obtain rfl := Option.some.inj (hb.symm.trans hj)
    exact ⟨main, live, ⟨other, hg⟩, (handlePlayCard_ok .ai hp).1⟩
  · rw [hb] at hnone
    cases hnone

/-- The card in the slot the AI picks, and the fields the play leaves. -/
theorem aiPlay_best {i : ℕ} (hb : aiBest g.st.toCore g.hand = some i) :
    ∃ card, getCardDef (g.hand.card i) = some card ∧ card.cost ≤ g.st.mana ∧
      (aiPlay g i).st.toCore = g.st.toCore.played .ai card := by
  obtain ⟨h8, _, card, hp⟩ := aiBest_playable hb
  have hi : (UInt8.ofNat i).toNat = i := UInt8.toNat_ofNat_of_lt' (by simp [UInt8.size]; omega)
  obtain ⟨_, hk, hc⟩ := playable_iff.mp hp
  rw [hi] at hk
  exact ⟨card, hk, hc, (handlePlayCard_ok .ai hp).2⟩

theorem AiRun.foldl (h : AiRun g slots g') : g' = slots.foldl aiPlay g := by
  induction h with
  | ended _ => rfl
  | done _ _ _ => rfl
  | play _ _ _ _ ih => exact ih

theorem AiRun.greedy (h : AiRun g slots g') :
    ∀ pre i post, slots = pre ++ i :: post → GreedyPlay (pre.foldl aiPlay g) i := by
  induction h with
  | ended _ =>
    intro pre i post heq
    cases pre <;> cases heq
  | done _ _ _ =>
    intro pre i post heq
    cases pre <;> cases heq
  | play main live best _ ih =>
    intro pre i post heq
    cases pre with
    | nil =>
      obtain ⟨rfl, _⟩ := List.cons.inj heq
      exact aiBest_play main live best
    | cons j pre =>
      obtain ⟨rfl, htail⟩ := List.cons.inj heq
      exact ih pre i post htail

theorem aiPlay_card (g : Match) (i j : ℕ) :
    (aiPlay g i).hand.card j = if j = i then 0 else g.hand.card j := Hand.card_clear g.hand i j

/-- Every slot played held a card at the start. -/
theorem AiRun.held (h : AiRun g slots g') : ∀ i ∈ slots, g.hand.card i ≠ 0 := by
  induction h with
  | ended _ => exact fun _ hi => absurd hi List.not_mem_nil
  | done _ _ _ => exact fun _ hi => absurd hi List.not_mem_nil
  | play _ _ best _ ih =>
    intro j hj
    rcases List.mem_cons.mp hj with rfl | hj
    · exact (aiBest_playable best).2.1
    · have hheld := ih j hj
      rw [aiPlay_card] at hheld
      split at hheld
      · exact absurd rfl hheld
      · exact hheld

theorem AiRun.ne_played {i : ℕ} (h : AiRun (aiPlay g i) slots g') : ∀ j ∈ slots, j ≠ i := by
  intro j hj hji
  have hheld := h.held j hj
  rw [aiPlay_card, if_pos hji] at hheld
  exact hheld rfl

theorem AiRun.nodup (h : AiRun g slots g') : slots.Nodup := by
  induction h with
  | ended _ => exact List.nodup_nil
  | done _ _ _ => exact List.nodup_nil
  | play _ _ _ rest ih => exact List.nodup_cons.mpr ⟨fun hi => rest.ne_played _ hi rfl, ih⟩

/-- The plays are paid from the mana there was at the start. -/
theorem AiRun.cost_le (h : AiRun g slots g') : (slots.map g.hand.cost).sum ≤ g.st.mana.toNat := by
  induction h with
  | ended _ => exact Nat.zero_le _
  | done _ _ _ => exact Nat.zero_le _
  | @play g g' i slots _ _ best rest ih =>
    obtain ⟨card, hk, hc, hcore⟩ := aiPlay_best best
    have hcost : g.hand.cost i = card.cost.toNat := by
      unfold Hand.cost
      rw [hk]
      rfl
    have hmana : (aiPlay g i).st.mana.toNat + card.cost.toNat = g.st.mana.toNat := by
      rw [hcore, Core.played_mana, pay_mana hc]
    have hsame : slots.map (aiPlay g i).hand.cost = slots.map g.hand.cost := by
      apply List.map_congr_left
      intro j hj
      unfold Hand.cost
      rw [aiPlay_card, if_neg (rest.ne_played j hj)]
    rw [hsame] at ih
    rw [List.map_cons, List.sum_cons, hcost]
    omega

theorem Core.check_gameOver {c : Core} (h : c.gameOver = 0) :
    c.check.gameOver = 0 ∨ c.check.gameOver = 1 := by
  rcases c.check_cases with hc | hc
  · rw [hc]
    exact Or.inl h
  · rw [hc]
    exact Or.inr rfl

theorem aiPlay_gameOver {i : ℕ} (live : g.st.gameOver = 0)
    (best : aiBest g.st.toCore g.hand = some i) :
    (aiPlay g i).st.gameOver = 0 ∨ (aiPlay g i).st.gameOver = 1 := by
  obtain ⟨card, _, _, hcore⟩ := aiPlay_best best
  rw [hcore]
  apply Core.check_gameOver
  rw [(Core.applyCard_fields _ _ _ _).2.2.1]
  exact live

/-- What the loop leaves: it stops only when the game is over or no slot is
eligible. -/
theorem AiRun.left (h : AiRun g slots g') (main : g.st.phase = .main)
    (live : g.st.gameOver = 0 ∨ g.st.gameOver = 1) :
    g'.rng = g.rng ∧ g'.st.turn = g.st.turn ∧ (g'.st.gameOver = 1 ∨
      (g'.st.gameOver = 0 ∧ ∀ j card, ¬ Eligible g'.st.toCore g'.hand j card)) := by
  induction h with
  | ended stop =>
    refine ⟨rfl, rfl, Or.inl ?_⟩
    rcases live with h0 | h1
    · exact absurd ⟨main, h0⟩ stop
    · exact h1
  | @done g _ live' best =>
    refine ⟨rfl, rfl, Or.inr ⟨live', ?_⟩⟩
    rcases aiBest_spec g.st.toCore g.hand with ⟨_, _, hj, _⟩ | ⟨_, hnone⟩
    · rw [best] at hj
      cases hj
    · exact hnone
  | @play g g' i slots _ live' best _ ih =>
    have hmain : (aiPlay g i).st.phase = .main := by
      obtain ⟨card, _, _, hcore⟩ := aiPlay_best best
      rw [hcore, Core.played_phase, main]
    obtain ⟨hrng, hturn, hend⟩ := ih hmain (aiPlay_gameOver live' best)
    exact ⟨hrng, hturn.trans (aiPlay_turn g i), hend⟩

end Run

/-- `phase_end` of a running game stops it or hands over a full turn. -/
theorem phaseEnd_full {g : Match} (live : g.st.gameOver = 0) :
    (phaseEnd g).st.gameOver = 1 ∨
      ((phaseEnd g).st.turn = (if g.st.turn = 0 then 1 else 0) ∧ (phaseEnd g).st.phase = .main ∧
        (phaseEnd g).st.mana = (phaseEnd g).st.maxMana ∧ (phaseEnd g).hand = dealHand g.rng) := by
  have htick : (phaseTick g).st.gameOver = 0 ∨ (phaseTick g).st.gameOver = 1 := by
    rw [phaseTick_core]
    apply Core.check_gameOver
    rw [g.st.toCore.ending.tickAll_fields.2.2.1]
    exact live
  unfold phaseEnd
  simp only
  rcases htick with h0 | h1
  · rw [if_neg (not_not_intro h0), phaseTick_turn]
    exact Or.inr ⟨rfl, rfl, rfl, rfl⟩
  · rw [if_pos (by rw [h1]; decide)]
    exact Or.inl h1

/-- The AI's turn ends; it plays each slot at most once, in every round the first
of the best ones it can pay for, never more than its mana, until the game is over
or nothing can be paid for; then the game is over or the player has a new turn. -/
theorem ai_turn_greedy (g : Match) (turn : g.st.turn = 1) (main : g.st.phase = .main)
    (live : g.st.gameOver = 0) :
    ∃ slots g', AiRun g slots g' ∧ g' = slots.foldl aiPlay g ∧
      processAiTurn g = (if g'.st.gameOver = 0 then phaseEnd g' else g') ∧
      slots.Nodup ∧
      (∀ pre i post, slots = pre ++ i :: post → GreedyPlay (pre.foldl aiPlay g) i) ∧
      (slots.map g.hand.cost).sum ≤ g.st.mana.toNat ∧
      (g'.st.gameOver = 1 ∨ ∀ j card, ¬ Eligible g'.st.toCore g'.hand j card) ∧
      ((processAiTurn g).st.gameOver = 1 ∨
        ((processAiTurn g).st.turn = 0 ∧ (processAiTurn g).st.phase = .main ∧
          (processAiTurn g).st.mana = (processAiTurn g).st.maxMana ∧
          (processAiTurn g).hand = dealHand g.rng ∧ (processAiTurn g).hand.n = 3)) := by
  obtain ⟨slots, hrun⟩ := aiRun_aiLoop g
  obtain ⟨hrng, hturn, hend⟩ := hrun.left main (Or.inl live)
  refine ⟨slots, aiLoop g, hrun, hrun.foldl, rfl, hrun.nodup, hrun.greedy, hrun.cost_le, ?_, ?_⟩
  · rcases hend with h1 | ⟨_, hnone⟩
    · exact Or.inl h1
    · exact Or.inr hnone
  · unfold processAiTurn
    simp only
    rcases hend with h1 | ⟨h0, _⟩
    · rw [if_neg (by rw [h1]; decide)]
      exact Or.inl h1
    · rw [if_pos h0]
      rcases phaseEnd_full h0 with hover | ⟨ht, hp, hm, hh⟩
      · exact Or.inl hover
      · rw [hturn, turn] at ht
        rw [hrng] at hh
        exact Or.inr ⟨ht, hp, hm, hh, by rw [hh]; rfl⟩

/-- A poison card and an attack, an unknown id and an empty slot, with mana for
the two cards. -/
theorem ai_turn_greedy_poison :
    (processAiTurn ⟨State.zero.update fun c =>
        { c with pHp := 30, aiHp := 30, turn := 1, phase := .main, mana := 3, maxMana := 3 },
      ⟨4, #v[100, 999, 0, 500, 0, 0, 0, 0]⟩, fun k => k, []⟩).st.turn = 0 := by
  obtain ⟨_, _, _, _, _, _, _, _, _, hend⟩ := ai_turn_greedy ⟨State.zero.update fun c =>
      { c with pHp := 30, aiHp := 30, turn := 1, phase := .main, mana := 3, maxMana := 3 },
    ⟨4, #v[100, 999, 0, 500, 0, 0, 0, 0]⟩, fun k => k, []⟩ rfl rfl rfl
  rcases hend with hover | ⟨hturn, _⟩
  · exact absurd hover (by decide +kernel)
  · exact hturn

end MiniTcg.Game
