import MiniTcg.Game.Rules

/-!
# Dealing, the phases of a turn and the AI's turn

The functions that take `state_t *st, hand_t *hand` act on a `Match`: the two
records, the outcomes of `rand()` still to come, and a history variable that
lists the draws, the plays and the poison ticks, newest first. The history is
written and never read by the code.
-/
namespace MiniTcg.Game

/-- One call of `handle_play_card` with what its caller does to the hand. -/
structure Play where
  side : Side
  idx : UInt8
  before : Core
  hand : Hand
  rc : ℤ
  after : Core
  handAfter : Hand
  deriving DecidableEq

inductive Event
  | draw (turn : UInt8) (hand : Hand)
  | play (p : Play)
  | tick (before : Core)
  deriving DecidableEq

structure Match where
  st : State
  hand : Hand
  rng : ℕ → ℕ
  trace : List Event

/-- The pool of `rand_card_id`. -/
def pool : List UInt16 := [100, 101, 102, 200, 201, 300, 301, 400, 401, 500, 501]

/-- `rand_card_id` when `rand()` returns `r`. -/
def randCardId (r : ℕ) : UInt16 := pool.get ⟨r % pool.length, Nat.mod_lt _ (by decide)⟩

/-- `deal_hand`: three draws in order, the other slots cleared. -/
def dealHand (rng : ℕ → ℕ) : Hand where
  n := 3
  cardIds := #v[randCardId (rng 0), randCardId (rng 1), randCardId (rng 2), 0, 0, 0, 0, 0]

/-- `phase_draw`. -/
def phaseDraw (g : Match) : Match :=
  let hand := dealHand g.rng
  let st := g.st.update fun c => { c with mana := c.maxMana }
  let st := pushLog st (text (if st.turn = 0 then "P: DRAW PHASE" else "AI: DRAW PHASE"))
  let st := st.update fun c => { c with phase := .main }
  { st := st, hand := hand, rng := fun k => g.rng (k + 3), trace := .draw st.turn hand :: g.trace }

/-- `enter_turn`. -/
def enterTurn (g : Match) (side : UInt8) : Match :=
  phaseDraw { g with st := g.st.update fun c => { c with turn := side, phase := .draw } }

/-- `phase_end` up to its test of `game_over`. -/
def phaseTick (g : Match) : Match :=
  let st := g.st.update fun c => { c with phase := .ending }
  let st := pushLog st (text (if st.turn = 0 then "P: END PHASE" else "AI: END PHASE"))
  { g with st := checkGameOver (tickPoison st), trace := .tick st.toCore :: g.trace }

/-- `phase_end`. -/
def phaseEnd (g : Match) : Match :=
  let g := phaseTick g
  if g.st.gameOver ≠ 0 then g
  else enterTurn g (if g.st.turn = 0 then 1 else 0)

/-- `ai_eval_card`. -/
def aiEvalCard (c : Core) (card : CardDef) : ℤ :=
  let t := CardType.ofByte card.type
  let low : ℤ := if c.aiHp.toInt < 10 ∧ t = some .heal then 100 else 0
  let setup : ℤ := if 0 < c.pShield.toInt ∧ t = some .buff then 40 else 0
  let base : ℤ := match t with
    | some .atk => card.value.toInt
    | some .poison => if c.pPoison = 0 then 30 else 0
    | some .shield => if c.aiShield.toInt = 0 then 20 else 0
    | _ => 0
  low + setup + base - card.cost.toNat * 2

/-- One iteration of the scan for the best card; `none` is `best_idx = -1`. -/
def aiConsider (c : Core) (hand : Hand) (best : Option ℕ × ℤ) (i : ℕ) : Option ℕ × ℤ :=
  if hand.card i = 0 then best
  else
    match getCardDef (hand.card i) with
    | none => best
    | some card =>
      if card.cost ≤ c.mana then
        let score := aiEvalCard c card
        if best.2 < score then (some i, score) else best
      else best

/-- The `for` loop of `process_ai_turn`. -/
def aiBest (c : Core) (hand : Hand) : Option ℕ :=
  ((List.range hand.n.toNat).foldl (aiConsider c hand) (none, -9999)).1

/-- The AI plays slot `i` and clears it, whatever the play returned. -/
def aiPlay (g : Match) (i : ℕ) : Match :=
  let r := handlePlayCard g.st g.hand .ai (UInt8.ofNat i)
  let hand := g.hand.clear i
  { g with
    st := r.1
    hand := hand
    trace := .play ⟨.ai, UInt8.ofNat i, g.st.toCore, g.hand, r.2, r.1.toCore, hand⟩ :: g.trace }

/-- At most `k` iterations of the `while` loop of `process_ai_turn`. -/
def aiLoopUpTo : ℕ → Match → Match
  | 0, g => g
  | k + 1, g =>
    if g.st.phase = .main ∧ g.st.gameOver = 0 then
      match aiBest g.st.toCore g.hand with
      | some i => aiLoopUpTo k (aiPlay g i)
      | none => g
    else g

/-- The `while` loop of `process_ai_turn`. Every iteration empties one of the
eight slots, so eight are enough; `aiLoop_eq` is the loop's own equation. -/
def aiLoop (g : Match) : Match := aiLoopUpTo 8 g

/-- `process_ai_turn`. -/
def processAiTurn (g : Match) : Match :=
  let g := aiLoop g
  if g.st.gameOver = 0 then phaseEnd g else g

/-- The call of `handle_play_card` in the `OP_PLAY_CARD` branch, which leaves
the hand as it is. -/
def playerPlay (g : Match) (idx : UInt8) : Match :=
  let r := handlePlayCard g.st g.hand .player idx
  { g with
    st := r.1
    trace := .play ⟨.player, idx, g.st.toCore, g.hand, r.2, r.1.toCore, g.hand⟩ :: g.trace }

/-- The assignments and the `enter_turn` of an `OP_LOGIN_REQ`. -/
def loginGame (g : Match) : Match :=
  enterTurn { g with
    st := g.st.update fun c => { c with pHp := 30, aiHp := 30, maxMana := 3, gameOver := 0 } } 0

end MiniTcg.Game
