import Mathlib.Data.Finset.Card
import Mathlib.Logic.Relation
import MiniTcg.Game.Turn

/-!
# A match as a step relation

`View` forgets the log and the random source of a `Match`. `Step` says what can
happen to a view: a successful play, a refused play of the player, the poison
tick that ends a turn, and the draw that starts the next one. Every function of
the turn machinery is a sequence of these steps, so a property of all reachable
views needs one lemma per constructor.
-/
namespace MiniTcg.Game

structure View where
  core : Core
  hand : Hand
  trace : List Event

def Match.view (g : Match) : View := ⟨g.st.toCore, g.hand, g.trace⟩

/-- The value of `turn` while a side moves. -/
def Side.turn : Side → UInt8
  | .player => 0
  | .ai => 1

/-- The hand after a successful play: only the AI's loop clears the slot. -/
def Hand.after (h : Hand) (idx : UInt8) : Side → Hand
  | .player => h
  | .ai => h.clear idx.toNat

def Core.tickIf (c : Core) (x : Side) : Core := if 0 < c.poison x then c.tick x else c

/-- The fields `tick_poison` leaves. -/
def Core.tickAll (c : Core) : Core := (c.tickIf .player).tickIf .ai

def Core.ending (c : Core) : Core := { c with phase := .ending }

def Core.enter (c : Core) (side : UInt8) : Core :=
  { c with turn := side, phase := .main, mana := c.maxMana }

def Dealt (hand : Hand) : Prop := ∃ rng, hand = dealHand rng

inductive Step : View → View → Prop
  | play {v : View} {x : Side} {idx : UInt8} {card : CardDef}
      (live : v.core.gameOver = 0) (main : v.core.phase = .main) (turn : v.core.turn = x.turn)
      (ok : playable v.core v.hand idx = some card) :
      Step v ⟨v.core.played x card, v.hand.after idx x,
        .play ⟨x, idx, v.core, v.hand, 0, v.core.played x card, v.hand.after idx x⟩ :: v.trace⟩
  | refuse {v : View} {idx : UInt8}
      (live : v.core.gameOver = 0) (main : v.core.phase = .main) (turn : v.core.turn = 0)
      (no : playable v.core v.hand idx = none) :
      Step v ⟨v.core, v.hand,
        .play ⟨.player, idx, v.core, v.hand, refusal v.hand idx, v.core, v.hand⟩ :: v.trace⟩
  | tick {v : View} {x : Side}
      (live : v.core.gameOver = 0) (main : v.core.phase = .main) (turn : v.core.turn = x.turn) :
      Step v ⟨v.core.ending.tickAll.check, v.hand, .tick v.core.ending :: v.trace⟩
  | draw {v : View} {x : Side} {hand : Hand}
      (live : v.core.gameOver = 0) (ended : v.core.phase = .ending) (turn : v.core.turn = x.turn)
      (dealt : Dealt hand) :
      Step v ⟨v.core.enter x.other.turn, hand, .draw x.other.turn hand :: v.trace⟩

abbrev Steps := Relation.ReflTransGen Step

/-- The view a login creates. -/
def View.start (hand : Hand) : View :=
  ⟨{ State.zero.toCore with
      pHp := 30, aiHp := 30, phase := .main, mana := 3, maxMana := 3 },
    hand, [.draw 0 hand]⟩

/-- The views of all matches. -/
def Reachable (v : View) : Prop := ∃ hand, Dealt hand ∧ Steps (View.start hand) v

/-- The invariant rule: what a login establishes and every step preserves holds
of every reachable view. -/
theorem Reachable.invariant {P : View → Prop} (start : ∀ hand, Dealt hand → P (View.start hand))
    (step : ∀ v w, Step v w → P v → P w) {v : View} (h : Reachable v) : P v := by
  obtain ⟨hand, hd, hs⟩ := h
  induction hs with
  | refl => exact start hand hd
  | tail _ hstep ih => exact step _ _ hstep ih

theorem Reachable.steps {v w : View} (h : Reachable v) (hs : Steps v w) : Reachable w := by
  obtain ⟨hand, hd, h⟩ := h
  exact ⟨hand, hd, h.trans hs⟩

/-! ### The fields each function leaves -/

@[simp] theorem Core.table_tickIf (c : Core) (x : Side) : (c.tickIf x).table = c.table := by
  unfold Core.tickIf
  split <;> simp

@[simp] theorem Core.table_tickAll (c : Core) : c.tickAll.table = c.table := by
  simp [Core.tickAll]

theorem Core.tickAll_fields (c : Core) :
    c.tickAll.turn = c.turn ∧ c.tickAll.phase = c.phase ∧ c.tickAll.gameOver = c.gameOver ∧
      c.tickAll.winner = c.winner ∧ c.tickAll.mana = c.mana ∧ c.tickAll.maxMana = c.maxMana := by
  simpa only [Core.table, Prod.mk.injEq] using c.table_tickAll

@[simp] theorem Core.tickAll_turn (c : Core) : c.tickAll.turn = c.turn := c.tickAll_fields.1
@[simp] theorem Core.tickAll_phase (c : Core) : c.tickAll.phase = c.phase := c.tickAll_fields.2.1

theorem tickSide_toCore (st : State) (x : Side) (msg : String) :
    (tickSide st x msg).toCore = st.toCore.tickIf x := by
  unfold tickSide Core.tickIf
  split <;> rfl

theorem tickPoison_toCore (st : State) : (tickPoison st).toCore = st.toCore.tickAll := by
  unfold tickPoison Core.tickAll
  rw [tickSide_toCore, tickSide_toCore]

theorem phaseTick_view (g : Match) :
    (phaseTick g).view = ⟨g.view.core.ending.tickAll.check, g.hand,
      .tick g.view.core.ending :: g.trace⟩ := by
  simp only [phaseTick, Match.view, checkGameOver_toCore, tickPoison_toCore, pushLog_toCore,
    State.update_toCore]
  rfl

theorem enterTurn_view (g : Match) (side : UInt8) :
    (enterTurn g side).view =
      ⟨g.view.core.enter side, dealHand g.rng, .draw side (dealHand g.rng) :: g.trace⟩ := rfl

theorem enterTurn_core (g : Match) (side : UInt8) :
    (enterTurn g side).st.toCore = g.st.toCore.enter side := rfl

theorem aiPlay_view {g : Match} {i : ℕ} {card : CardDef} (hi : i < 256)
    (h : playable g.st.toCore g.hand (UInt8.ofNat i) = some card) :
    (aiPlay g i).view = ⟨g.view.core.played .ai card, g.hand.after (UInt8.ofNat i) .ai,
      .play ⟨.ai, UInt8.ofNat i, g.view.core, g.hand, 0, g.view.core.played .ai card,
        g.hand.after (UInt8.ofNat i) .ai⟩ :: g.trace⟩ := by
  obtain ⟨hrc, hcore⟩ := handlePlayCard_ok .ai h
  have hn : (UInt8.ofNat i).toNat = i := UInt8.toNat_ofNat_of_lt' hi
  simp only [aiPlay, Match.view, hrc, hcore, Hand.after, hn]

theorem playerPlay_view_ok {g : Match} {idx : UInt8} {card : CardDef}
    (h : playable g.st.toCore g.hand idx = some card) :
    (playerPlay g idx).view = ⟨g.view.core.played .player card, g.hand,
      .play ⟨.player, idx, g.view.core, g.hand, 0, g.view.core.played .player card,
        g.hand⟩ :: g.trace⟩ := by
  obtain ⟨hrc, hcore⟩ := handlePlayCard_ok .player h
  simp only [playerPlay, Match.view, hrc, hcore]

theorem playerPlay_view_refused {g : Match} {idx : UInt8}
    (h : playable g.st.toCore g.hand idx = none) :
    (playerPlay g idx).view = ⟨g.view.core, g.hand,
      .play ⟨.player, idx, g.view.core, g.hand, refusal g.hand idx, g.view.core,
        g.hand⟩ :: g.trace⟩ := by
  simp only [playerPlay, Match.view, handlePlayCard_refused .player h]

theorem loginGame_view (rng : ℕ → ℕ) :
    (loginGame ⟨State.zero, Hand.zero, rng, []⟩).view = View.start (dealHand rng) := rfl

/-! ### The best card of the AI -/

theorem aiConsider_cases (c : Core) (hand : Hand) (best : Option ℕ × ℤ) (i : ℕ) :
    aiConsider c hand best i = best ∨
      ((aiConsider c hand best i).1 = some i ∧ hand.card i ≠ 0 ∧
        ∃ card, getCardDef (hand.card i) = some card ∧ card.cost ≤ c.mana) := by
  unfold aiConsider
  by_cases hz : hand.card i = 0
  · exact Or.inl (by simp [hz])
  · cases hk : getCardDef (hand.card i) with
    | none => exact Or.inl (by simp [hz])
    | some card =>
      by_cases hc : card.cost ≤ c.mana
      · by_cases hs : best.2 < aiEvalCard c card
        · exact Or.inr ⟨by simp [hz, hc, hs], hz, card, rfl, hc⟩
        · exact Or.inl (by simp [hz, hc, hs])
      · exact Or.inl (by simp [hz, hc])

theorem aiFold_some (c : Core) (hand : Hand) (l : List ℕ) (best : Option ℕ × ℤ) (i : ℕ)
    (h : (l.foldl (aiConsider c hand) best).1 = some i) :
    best.1 = some i ∨ (i ∈ l ∧ hand.card i ≠ 0 ∧
      ∃ card, getCardDef (hand.card i) = some card ∧ card.cost ≤ c.mana) := by
  induction l generalizing best with
  | nil => exact Or.inl h
  | cons j l ih =>
    rcases ih _ h with hb | ⟨hm, hrest⟩
    · rcases aiConsider_cases c hand best j with he | ⟨he, hz, hc⟩
      · exact Or.inl (by rwa [he] at hb)
      · obtain rfl : j = i := Option.some.inj (he.symm.trans hb)
        exact Or.inr ⟨List.mem_cons_self, hz, hc⟩
    · exact Or.inr ⟨List.mem_cons_of_mem j hm, hrest⟩

/-- The card the AI picks is one `handle_play_card` accepts. -/
theorem aiBest_playable {c : Core} {hand : Hand} {i : ℕ} (h : aiBest c hand = some i) :
    i < 8 ∧ hand.card i ≠ 0 ∧ ∃ card, playable c hand (UInt8.ofNat i) = some card := by
  rcases aiFold_some c hand _ _ i h with hn | ⟨hm, hz, card, hk, hc⟩
  · cases hn
  have h8 : i < 8 := by
    by_contra hge
    exact hz (hand.card_past (by omega))
  have hn : (UInt8.ofNat i).toNat = i := UInt8.toNat_ofNat_of_lt' (by simp [UInt8.size]; omega)
  refine ⟨h8, hz, card, playable_iff.mpr ⟨?_, by rwa [hn], hc⟩⟩
  rw [UInt8.lt_iff_toNat_lt, hn]
  exact List.mem_range.mp hm

/-! ### The loop of the AI -/

/-- Slots that still hold a card. -/
def Hand.live (h : Hand) : ℕ := ((Finset.range 8).filter (fun i => h.card i ≠ 0)).card

theorem Hand.live_le (h : Hand) : h.live ≤ 8 :=
  (Finset.card_filter_le _ _).trans (by simp)

theorem Hand.live_clear {h : Hand} {i : ℕ} (hi : i < 8) (hc : h.card i ≠ 0) :
    (h.clear i).live < h.live := by
  apply Finset.card_lt_card
  refine Finset.ssubset_iff_subset_ne.mpr ⟨?_, ?_⟩
  · intro j hj
    simp only [Finset.mem_filter, Hand.card_clear] at hj ⊢
    refine ⟨hj.1, ?_⟩
    by_cases he : j = i
    · simp [he] at hj
    · simpa [he] using hj.2
  · intro he
    have hm : i ∈ (Finset.range 8).filter (fun j => (h.clear i).card j ≠ 0) := by
      rw [he]
      simp [hi, hc]
    simp at hm

theorem aiLoopUpTo_stable (k : ℕ) (g : Match) (h : g.hand.live ≤ k) :
    aiLoopUpTo (k + 1) g = aiLoopUpTo k g := by
  induction k generalizing g with
  | zero =>
    rw [aiLoopUpTo, aiLoopUpTo]
    split
    · cases hb : aiBest g.st.toCore g.hand with
      | none => rfl
      | some i =>
        obtain ⟨h8, hz, _⟩ := aiBest_playable hb
        have hl := Hand.live_clear h8 hz
        omega
    · rfl
  | succ k ih =>
    rw [aiLoopUpTo]
    conv_rhs => rw [aiLoopUpTo]
    split
    · cases hb : aiBest g.st.toCore g.hand with
      | none => rfl
      | some i =>
        obtain ⟨h8, hz, _⟩ := aiBest_playable hb
        have hl := Hand.live_clear h8 hz
        exact ih (aiPlay g i) (by change (g.hand.clear i).live ≤ k; omega)
    · rfl

/-- The `while` loop of `process_ai_turn`, as the source writes it. -/
theorem aiLoop_eq (g : Match) :
    aiLoop g =
      if g.st.phase = .main ∧ g.st.gameOver = 0 then
        match aiBest g.st.toCore g.hand with
        | some i => aiLoop (aiPlay g i)
        | none => g
      else g := by
  have h := aiLoopUpTo_stable 8 g g.hand.live_le
  unfold aiLoop
  exact h.symm

/-! ### The turn machinery is a sequence of steps -/

theorem aiLoopUpTo_steps (k : ℕ) (g : Match) (main : g.st.phase = .main) (turn : g.st.turn = 1) :
    Steps g.view (aiLoopUpTo k g).view ∧
      (aiLoopUpTo k g).st.phase = .main ∧ (aiLoopUpTo k g).st.turn = 1 := by
  induction k generalizing g with
  | zero => exact ⟨.refl, main, turn⟩
  | succ k ih =>
    rw [aiLoopUpTo]
    split
    · rename_i hlive
      cases hb : aiBest g.st.toCore g.hand with
      | none => exact ⟨.refl, main, turn⟩
      | some i =>
        obtain ⟨h8, _, card, hp⟩ := aiBest_playable hb
        have hv := aiPlay_view (by omega) hp
        have hc : (aiPlay g i).st.toCore = g.st.toCore.played .ai card := congrArg View.core hv
        obtain ⟨hs, hm, ht⟩ := ih (aiPlay g i) (by rw [hc, Core.played_phase, main])
          (by rw [hc, Core.played_turn, turn])
        refine ⟨Relation.ReflTransGen.head ?_ hs, hm, ht⟩
        rw [hv]
        exact .play (v := g.view) hlive.2 main turn hp
    · exact ⟨.refl, main, turn⟩

theorem phaseTick_step {g : Match} {x : Side} (live : g.st.gameOver = 0)
    (main : g.st.phase = .main) (turn : g.st.turn = x.turn) : Step g.view (phaseTick g).view := by
  rw [phaseTick_view]
  exact .tick (v := g.view) (x := x) live main turn

theorem phaseTick_core (g : Match) :
    (phaseTick g).st.toCore = g.st.toCore.ending.tickAll.check :=
  congrArg View.core (phaseTick_view g)

theorem phaseTick_turn (g : Match) : (phaseTick g).st.turn = g.st.turn := by
  rw [phaseTick_core, Core.check_turn, Core.tickAll_turn]
  rfl

theorem phaseTick_phase (g : Match) : (phaseTick g).st.phase = .ending := by
  rw [phaseTick_core, Core.check_phase, Core.tickAll_phase]
  rfl

theorem Side.turn_other (x : Side) : (if x.turn = 0 then 1 else 0) = x.other.turn := by
  cases x <;> rfl

theorem phaseEnd_steps {g : Match} {x : Side} (live : g.st.gameOver = 0)
    (main : g.st.phase = .main) (turn : g.st.turn = x.turn) : Steps g.view (phaseEnd g).view := by
  have htick := phaseTick_step live main turn
  unfold phaseEnd
  simp only
  split
  · exact .single htick
  · rename_i hover
    have hover' : (phaseTick g).st.gameOver = 0 := by simpa using hover
    have hturn : (phaseTick g).st.turn = x.turn := (phaseTick_turn g).trans turn
    refine .tail (.single htick) ?_
    rw [hturn, Side.turn_other, enterTurn_view]
    exact .draw (v := (phaseTick g).view) hover' (phaseTick_phase g) hturn ⟨_, rfl⟩

theorem processAiTurn_steps {g : Match} (main : g.st.phase = .main) (turn : g.st.turn = 1) :
    Steps g.view (processAiTurn g).view := by
  obtain ⟨hs, hm, ht⟩ := aiLoopUpTo_steps 8 g main turn
  unfold processAiTurn
  simp only
  split
  · rename_i hlive
    exact hs.trans (phaseEnd_steps (x := .ai) hlive hm ht)
  · exact hs

theorem playerPlay_step {g : Match} (idx : UInt8) (live : g.st.gameOver = 0)
    (main : g.st.phase = .main) (turn : g.st.turn = 0) : Step g.view (playerPlay g idx).view := by
  cases h : playable g.st.toCore g.hand idx with
  | none =>
    rw [playerPlay_view_refused h]
    exact .refuse (v := g.view) live main turn h
  | some card =>
    rw [playerPlay_view_ok h]
    exact .play (v := g.view) (x := .player) live main turn h

/-! ### What is left when a function returns -/

/-- `phase_end` stops the game or hands the turn over. -/
theorem phaseEnd_result (g : Match) :
    (phaseEnd g).st.gameOver ≠ 0 ∨
      ((phaseEnd g).st.turn = (if g.st.turn = 0 then 1 else 0) ∧ (phaseEnd g).st.phase = .main ∧
        (phaseEnd g).st.gameOver = 0) := by
  unfold phaseEnd
  simp only
  split
  · exact Or.inl ‹_›
  · rename_i hover
    rw [enterTurn_core, phaseTick_turn]
    exact Or.inr ⟨rfl, rfl, by simpa [Core.enter] using hover⟩

theorem aiPlay_turn (g : Match) (i : ℕ) : (aiPlay g i).st.turn = g.st.turn := by
  cases h : playable g.st.toCore g.hand (UInt8.ofNat i) with
  | none => simp only [aiPlay, handlePlayCard_refused .ai h]
  | some card => simp only [aiPlay, (handlePlayCard_ok .ai h).2, Core.played_turn]

theorem aiLoopUpTo_turn (k : ℕ) (g : Match) : (aiLoopUpTo k g).st.turn = g.st.turn := by
  induction k generalizing g with
  | zero => rfl
  | succ k ih =>
    rw [aiLoopUpTo]
    split
    · cases aiBest g.st.toCore g.hand with
      | none => rfl
      | some i => exact (ih (aiPlay g i)).trans (aiPlay_turn g i)
    · rfl

/-- From any state in which the AI moves, `process_ai_turn` stops the game or
returns the turn to the player. -/
theorem processAiTurn_result {g : Match} (turn : g.st.turn = 1) :
    (processAiTurn g).st.gameOver ≠ 0 ∨
      ((processAiTurn g).st.turn = 0 ∧ (processAiTurn g).st.phase = .main ∧
        (processAiTurn g).st.gameOver = 0) := by
  have ht : (aiLoop g).st.turn = 1 := (aiLoopUpTo_turn 8 g).trans turn
  unfold processAiTurn
  simp only
  split
  · have h := phaseEnd_result (aiLoop g)
    rw [ht] at h
    exact h
  · exact Or.inl ‹_›

end MiniTcg.Game
