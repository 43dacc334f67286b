import MiniTcg.Game.Exact
import MiniTcg.Game.Playout

/-!
# A match that overflows

The player draws Venoms and plays one every turn; the AI draws Potions and heals
itself. Each round the AI's poison grows by one and its hit points by three, so
after 253 rounds the next Venom is added to a poison counter of 253.
-/
namespace MiniTcg.Game

open MiniTcg.Wire

def venom : CardDef := ⟨501, 5, 3, 3⟩
def potion : CardDef := ⟨201, 2, 3, 7⟩

/-- Three Venoms for the player, three Potions for the AI, and so on. -/
def venomRng (k : ℕ) : ℕ := if k / 3 % 2 = 0 then 10 else 4

def venomRound : List Packet := [⟨opPlayCard, [0]⟩, ⟨opEndTurn, []⟩]

def venomRounds (k : ℕ) : List Packet := (List.replicate k venomRound).flatten

/-- The states of the match: the AI has `h` hit points and poison `q`. -/
def duel (turn : UInt8) (phase : Phase) (mana : UInt8) (h : Int16) (q : UInt8) : Core where
  pHp := 30
  aiHp := h
  turn := turn
  phase := phase
  gameOver := 0
  winner := 0
  mana := mana
  maxMana := 3
  pShield := 0
  aiShield := 0
  pBuff := 0
  aiBuff := 0
  pPoison := 0
  aiPoison := q

section Duel
variable {turn mana : UInt8} {phase : Phase} {h : Int16} {q : UInt8}

theorem duel_check (hh : 0 < h.toInt) :
    (duel turn phase mana h q).check = duel turn phase mana h q := by
  have hlive : ¬ ((30 : Int16).toInt ≤ 0 ∨ h.toInt ≤ 0) := by
    rintro (h30 | hai)
    · exact absurd h30 (by decide)
    · omega
  unfold Core.check
  rw [if_neg (fun hne => hne rfl)]
  exact if_neg hlive

theorem duel_venom (hh : 0 < h.toInt) :
    (duel 0 .main 3 h q).played .player venom = duel 0 .main 0 h (Narrow.u8 (q.toNat + 3)) :=
  duel_check (q := Narrow.u8 (q.toNat + (Narrow.u8 (3 : Int16).toInt).toNat)) hh

theorem duel_potion (hh : 0 < (Narrow.i16 (h.toInt + 7)).toInt) :
    (duel 1 .main 3 h q).played .ai potion = duel 1 .main 0 (Narrow.i16 (h.toInt + 7)) q :=
  duel_check hh

theorem duel_tick (hq : 0 < q) (hh : 2 < h.toInt) :
    (duel turn .main mana h q).ending.tickAll.check =
      duel turn .ending mana (Narrow.i16 (h.toInt - 2)) (Narrow.u8 (q.toNat - 1)) := by
  have hb := (Narrow.i16_bounds h).2
  have hnew := Narrow.toInt_i16 (x := h.toInt - 2) ⟨by omega, by omega⟩
  have hp : (duel turn .main mana h q).ending.tickIf .player = duel turn .ending mana h q := rfl
  have hpos : 0 < (duel turn .ending mana h q).poison .ai := hq
  have ha : (duel turn .ending mana h q).tickIf .ai =
      duel turn .ending mana (Narrow.i16 (h.toInt - 2)) (Narrow.u8 (q.toNat - 1)) := by
    unfold Core.tickIf
    rw [if_pos hpos]
    refine if_neg ?_
    change ¬ (Narrow.i16 (h.toInt - 2)).toInt < 0
    omega
  rw [Core.tickAll, hp, ha]
  exact duel_check (by omega)

/-- The AI's hand of the match. -/
def potions : Hand := dealHand fun _ => 4

def venoms : Hand := dealHand fun _ => 10

theorem duel_score (hh : 10 ≤ h.toInt) : aiEvalCard (duel 1 .main mana h q) potion = -6 := by
  have hlow : ¬ ((duel 1 .main mana h q).aiHp.toInt < 10 ∧
      CardType.ofByte potion.type = some .heal) := by
    rintro ⟨hlt, _⟩
    change h.toInt < 10 at hlt
    omega
  unfold aiEvalCard
  simp only [if_neg hlow]
  rfl

theorem duel_best (hh : 10 ≤ h.toInt) : aiBest (duel 1 .main 3 h q) potions = some 0 := by
  have hstep : ∀ best i, i < 3 → aiConsider (duel 1 .main 3 h q) potions best i =
      if best.2 < -6 then (some i, -6) else best := by
    intro best i hi
    have hcard : potions.card i = 201 := dealHand_card _ hi
    have hknown : getCardDef 201 = some potion := by decide
    have hcost : potion.cost ≤ (duel 1 .main 3 h q).mana := by
      change (3 : UInt8) ≤ 3
      decide
    have hnz : ¬ (201 : UInt16) = 0 := by decide
    unfold aiConsider
    rw [hcard, if_neg hnz, hknown]
    simp only [if_pos hcost, duel_score hh]
  have hn : List.range potions.n.toNat = [0, 1, 2] := by decide
  unfold aiBest
  rw [hn]
  simp only [List.foldl_cons, List.foldl_nil]
  rw [hstep _ 0 (by decide), hstep _ 1 (by decide), hstep _ 2 (by decide)]
  rfl

theorem duel_rest : aiBest (duel 1 .main 0 h q) (potions.clear 0) = none := by
  have hstep : ∀ best i, i < 3 → aiConsider (duel 1 .main 0 h q) (potions.clear 0) best i = best := by
    intro best i hi
    have hcost : ¬ potion.cost ≤ (duel 1 .main 0 h q).mana := by
      change ¬ (3 : UInt8) ≤ 0
      decide
    have hknown : getCardDef 201 = some potion := by decide
    unfold aiConsider
    rw [Hand.card_clear]
    by_cases h0 : i = 0
    · simp [h0]
    · have hcard : potions.card i = 201 := dealHand_card _ hi
      rw [if_neg h0, hcard, hknown]
      simp only [if_neg hcost, ite_self]
  have hn : List.range (potions.clear 0).n.toNat = [0, 1, 2] := by decide
  unfold aiBest
  rw [hn]
  simp only [List.foldl_cons, List.foldl_nil]
  rw [hstep _ 0 (by decide), hstep _ 1 (by decide), hstep _ 2 (by decide)]

theorem duel_phaseEnd {g : Match} (hcore : g.st.toCore = duel turn .main mana h q) (hq : 0 < q)
    (hh : 2 < h.toInt) :
    (phaseEnd g).st.toCore = duel (if turn = 0 then 1 else 0) .main 3 (Narrow.i16 (h.toInt - 2))
        (Narrow.u8 (q.toNat - 1)) ∧
      (phaseEnd g).hand = dealHand g.rng ∧ (phaseEnd g).rng = fun k => g.rng (k + 3) := by
  have htick : (phaseTick g).st.toCore = duel turn .ending mana (Narrow.i16 (h.toInt - 2))
      (Narrow.u8 (q.toNat - 1)) := by
    rw [phaseTick_core, hcore]
    exact duel_tick hq hh
  have hlive : ¬ (phaseTick g).st.gameOver ≠ 0 := by
    rw [htick]
    exact fun hne => hne rfl
  have hend : phaseEnd g = enterTurn (phaseTick g) (if (phaseTick g).st.turn = 0 then 1 else 0) :=
    if_neg hlive
  rw [hend, enterTurn_core, htick]
  exact ⟨rfl, rfl, rfl⟩

theorem duel_aiTurn {g : Match} (hcore : g.st.toCore = duel 1 .main 3 h q) (hhand : g.hand = potions)
    (hq : 0 < q) (hh : 10 ≤ h.toInt) (hh' : h.toInt ≤ 1000) :
    (processAiTurn g).st.toCore = duel 0 .main 3 (Narrow.i16 (h.toInt + 5))
        (Narrow.u8 (q.toNat - 1)) ∧
      (processAiTurn g).hand = dealHand g.rng ∧
      (processAiTurn g).rng = fun k => g.rng (k + 3) := by
  have hnew := Narrow.toInt_i16 (x := h.toInt + 7) ⟨by omega, by omega⟩
  have hok : playable g.st.toCore g.hand (UInt8.ofNat 0) = some potion := by
    rw [hcore, hhand, playable_iff]
    exact ⟨by decide, by decide, by change (3 : UInt8) ≤ 3; decide⟩
  have hview := aiPlay_view (by decide) hok
  have hcore1 : (aiPlay g 0).st.toCore = duel 1 .main 0 (Narrow.i16 (h.toInt + 7)) q := by
    have hc : (aiPlay g 0).st.toCore = g.st.toCore.played .ai potion := congrArg View.core hview
    rw [hc, hcore]
    exact duel_potion (by omega)
  have hloop : aiLoop g = aiPlay g 0 := by
    rw [aiLoop_eq, hcore, hhand, duel_best hh, if_pos ⟨rfl, rfl⟩]
    simp only
    rw [aiLoop_eq, hcore1]
    have hhand1 : (aiPlay g 0).hand = potions.clear 0 := by
      rw [← hhand]
      rfl
    rw [hhand1, duel_rest, if_pos ⟨rfl, rfl⟩]
  have hturn : processAiTurn g = phaseEnd (aiPlay g 0) := by
    unfold processAiTurn
    rw [hloop]
    simp only [hcore1]
    exact if_pos rfl
  obtain ⟨hc, hd, hr⟩ := duel_phaseEnd hcore1 hq (by omega)
  rw [hturn, hc, hd, hr, hnew]
  refine ⟨?_, rfl, rfl⟩
  rw [show h.toInt + 7 - 2 = h.toInt + 5 by omega]
  rfl

end Duel

/-! ### The rounds -/

structure Duelling (g : Match) (hp poison : ℤ) : Prop where
  core : ∃ h q, g.st.toCore = duel 0 .main 3 h q ∧ h.toInt = hp ∧ (q.toNat : ℤ) = poison
  hand : g.hand = venoms
  rng : g.rng = fun k => venomRng (k + 3)

theorem venomRng_period : (fun k => venomRng (k + 3 + 3 + 3)) = fun k => venomRng (k + 3) := by
  funext k
  unfold venomRng
  rw [show (k + 3 + 3 + 3) / 3 % 2 = (k + 3) / 3 % 2 by omega]

theorem pos_u8 {v : ℤ} (hv : 0 < v) (hv' : v ≤ 255) : (0 : UInt8) < Narrow.u8 v := by
  have ht := Narrow.toNat_u8 (x := v) ⟨by omega, hv'⟩
  have h0 : (0 : UInt8).toNat = 0 := rfl
  rw [UInt8.lt_iff_toNat_lt]
  omega

/-- One round: the poison gains three turns and ticks twice. -/
theorem venom_round {g : Match} {hp poison : ℤ} (hg : Duelling g hp poison) (hhp : 20 ≤ hp)
    (hhp' : hp ≤ 900) (hpoison : poison ≤ 252) :
    Duelling (venomRound.foldl onPacket g) (hp + 3) (poison + 1) := by
  obtain ⟨⟨h, q, hcore, hh, hq⟩, hhand, hrng⟩ := hg
  have hlive : g.st.gameOver = 0 := by rw [hcore]; rfl
  have hidle : Idle g.st.toCore := by rw [hcore]; exact Or.inr ⟨rfl, rfl⟩
  have hok : playable g.st.toCore g.hand 0 = some venom := by
    rw [hcore, hhand, playable_iff]
    exact ⟨by decide, by decide, by change (3 : UInt8) ≤ 3; decide⟩
  have hcore1 : (playerPlay g 0).st.toCore = duel 0 .main 0 h (Narrow.u8 (q.toNat + 3)) := by
    have hc : (playerPlay g 0).st.toCore = g.st.toCore.played .player venom :=
      congrArg View.core (playerPlay_view_ok hok)
    rw [hc, hcore]
    exact duel_venom (by omega)
  have hq1 := Narrow.toNat_u8 (x := (q.toNat : ℤ) + 3) ⟨by omega, by omega⟩
  have hh2 := Narrow.toInt_i16 (x := h.toInt - 2) ⟨by omega, by omega⟩
  have hq2 := Narrow.toNat_u8 (x := (q.toNat : ℤ) + 3 - 1) ⟨by omega, by omega⟩
  obtain ⟨hcore2, hhand2, hrng2⟩ :=
    duel_phaseEnd hcore1 (pos_u8 (by omega) (by omega)) (by omega)
  rw [hq1] at hcore2
  have hhand2' : (phaseEnd (playerPlay g 0)).hand = potions := by
    rw [hhand2]
    change dealHand g.rng = potions
    rw [hrng]
    rfl
  obtain ⟨hcore3, hhand3, hrng3⟩ :=
    duel_aiTurn hcore2 hhand2' (pos_u8 (by omega) (by omega)) (by omega) (by omega)
  rw [hh2, hq2] at hcore3
  have hrun : venomRound.foldl onPacket g = processAiTurn (phaseEnd (playerPlay g 0)) := by
    change onPacket (onPacket g ⟨opPlayCard, [0]⟩) ⟨opEndTurn, []⟩ = _
    rw [onPacket_play hidle hlive, onPacket_end (by rw [hcore1]; rfl) (by rw [hcore1]; rfl)]
    unfold fullTurn settle
    rw [if_pos (by rw [hcore2]; exact ⟨rfl, rfl⟩)]
  have hdraws : (phaseEnd (playerPlay g 0)).rng = fun k => venomRng (k + 3 + 3) := by
    rw [hrng2]
    change (fun k => g.rng (k + 3)) = _
    rw [hrng]
  rw [hrun]
  refine ⟨⟨_, _, hcore3, ?_, ?_⟩, ?_, ?_⟩
  · rw [Narrow.toInt_i16 ⟨by omega, by omega⟩]
    omega
  · rw [Narrow.toNat_u8 ⟨by omega, by omega⟩]
    omega
  · rw [hhand3, hdraws]
    rfl
  · rw [hrng3, hdraws]
    exact venomRng_period

theorem venomRounds_succ (k : ℕ) : venomRounds (k + 1) = venomRounds k ++ venomRound := by
  unfold venomRounds
  rw [List.replicate_succ', List.flatten_append]
  simp

/-- After `k` rounds the AI has poison `k` and `30 + 3 * k` hit points. -/
theorem venom_rounds (k : ℕ) (hk : k ≤ 253) :
    Duelling (playout venomRng (venomRounds k)) (30 + 3 * k) k := by
  induction k with
  | zero => exact ⟨⟨30, 0, rfl, rfl, rfl⟩, rfl, rfl⟩
  | succ k ih =>
    have h := venom_round (ih (by omega)) (by omega) (by omega) (by omega)
    have hrun : playout venomRng (venomRounds (k + 1)) =
        venomRound.foldl onPacket (playout venomRng (venomRounds k)) := by
      rw [venomRounds_succ]
      exact List.foldl_append
    rw [hrun]
    push_cast
    rw [show (30 + 3 * ((k : ℤ) + 1)) = 30 + 3 * k + 3 by omega]
    exact h

/-- A Venom added to a counter of 253 is stored as 0. -/
theorem venom_wraps {g : Match} {hp : ℤ} (hg : Duelling g hp 253) (hhp : 20 ≤ hp) :
    ∃ p : Play, .play p ∈ (onPacket g ⟨opPlayCard, [0]⟩).trace ∧ p.side = .player ∧ p.rc = 0 ∧
      p.card = some venom ∧ p.before.aiPoison = 253 ∧ p.after.aiPoison = 0 := by
  obtain ⟨⟨h, q, hcore, hh, hq⟩, hhand, _⟩ := hg
  have hq' : q.toNat = (253 : UInt8).toNat := by
    change q.toNat = 253
    omega
  obtain rfl : q = 253 := UInt8.toNat_inj.mp hq'
  have hlive : g.st.gameOver = 0 := by rw [hcore]; rfl
  have hidle : Idle g.st.toCore := by rw [hcore]; exact Or.inr ⟨rfl, rfl⟩
  have hok : playable g.st.toCore g.hand 0 = some venom := by
    rw [hcore, hhand, playable_iff]
    exact ⟨by decide, by decide, by change (3 : UInt8) ≤ 3; decide⟩
  have htrace : (playerPlay g 0).trace = .play ⟨.player, 0, g.st.toCore, g.hand, 0,
      g.st.toCore.played .player venom, g.hand⟩ :: g.trace :=
    congrArg View.trace (playerPlay_view_ok hok)
  rw [onPacket_play hidle hlive, htrace]
  refine ⟨_, List.mem_cons_self, rfl, rfl, (playable_iff.mp hok).2.1, ?_, ?_⟩
  · rw [hcore]
    rfl
  · change (g.st.toCore.played .player venom).aiPoison = 0
    rw [hcore, duel_venom (by omega)]
    change Narrow.u8 (((253 : UInt8).toNat : ℤ) + 3) = 0
    decide

/-- The packets of 253 rounds and the Venom after them. -/
def venomPackets : List Packet := venomRounds 253 ++ [⟨opPlayCard, [0]⟩]

theorem venom_overflows :
    ∃ p : Play, .play p ∈ (playout venomRng venomPackets).trace ∧ p.side = .player ∧ p.rc = 0 ∧
      p.card = some venom ∧ p.before.aiPoison = 253 ∧ p.after.aiPoison = 0 := by
  have hrun : playout venomRng venomPackets =
      onPacket (playout venomRng (venomRounds 253)) ⟨opPlayCard, [0]⟩ := playout_append _ _ _
  rw [hrun]
  exact venom_wraps (venom_rounds 253 (le_refl _)) (by decide)

end MiniTcg.Game
