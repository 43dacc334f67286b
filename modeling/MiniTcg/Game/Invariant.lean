import Mathlib.Algebra.Order.Ring.Nat
import MiniTcg.Game.Step

/-!
# What holds of every reachable view

`Sane` collects the bounds the server relies on without checking them and the
mana account of the running turn; `Settled` ties `game_over` and `winner` to
the hit points. Both are proved for every reachable view of a match.
-/
namespace MiniTcg.Game

/-! ### Reading the history -/

def Play.card (p : Play) : Option CardDef := getCardDef (p.hand.card p.idx.toNat)

def Play.cost (p : Play) : ℕ := (p.card.map (·.cost.toNat)).getD 0

/-- The plays since the last draw, newest first. -/
def sinceDraw : List Event → List Play
  | [] => []
  | .draw _ _ :: _ => []
  | .play p :: t => p :: sinceDraw t
  | .tick _ :: t => sinceDraw t

/-- The cost of the successful plays since the last draw. -/
def spent (t : List Event) : ℕ := (((sinceDraw t).filter (·.rc = 0)).map Play.cost).sum

theorem spent_draw (turn : UInt8) (hand : Hand) (t : List Event) :
    spent (.draw turn hand :: t) = 0 := rfl

theorem spent_tick (c : Core) (t : List Event) : spent (.tick c :: t) = spent t := rfl

theorem spent_play (p : Play) (t : List Event) :
    spent (.play p :: t) = (if p.rc = 0 then p.cost else 0) + spent t := by
  by_cases h : p.rc = 0 <;> simp [spent, sinceDraw, h]

/-! ### The end of the game -/

theorem one_ne_zero8 : ¬ (1 : UInt8) = 0 := by decide

theorem zero_ne_one8 : ¬ (0 : UInt8) = 1 := by decide

structure Settled (c : Core) : Prop where
  flag : c.gameOver = 0 ∨ c.gameOver = 1
  ended : c.gameOver = 1 ↔ c.pHp.toInt ≤ 0 ∨ c.aiHp.toInt ≤ 0
  winner : c.gameOver = 1 → c.winner = c.verdict
  none : c.gameOver = 0 → c.winner = 0

/-- `check_game_over` settles a state in which the game was still open. -/
theorem check_settled {c : Core} (live : c.gameOver = 0) (none : c.winner = 0) :
    Settled c.check := by
  by_cases hd : c.pHp.toInt ≤ 0 ∨ c.aiHp.toInt ≤ 0
  · have hc : c.check = { c with gameOver := 1, winner := c.verdict } := by
      simp [Core.check, live, hd]
    rw [hc]
    exact ⟨Or.inr rfl, iff_of_true rfl hd, fun _ => rfl, fun h => absurd h one_ne_zero8⟩
  · have hc : c.check = c := by simp [Core.check, live, hd]
    rw [hc]
    refine ⟨Or.inl live, ?_, ?_, fun _ => none⟩
    · rw [live]
      exact iff_of_false zero_ne_one8 hd
    · intro h
      rw [live] at h
      exact absurd h zero_ne_one8

theorem settled_step {v w : View} (h : Step v w) (hs : Settled v.core) : Settled w.core := by
  cases h with
  | play live main turn ok =>
    obtain ⟨_, _, hg, hw, _, _⟩ := (v.core.pay _).applyCard_fields _ _ _
    exact check_settled (hg.trans live) (hw.trans (hs.none live))
  | refuse => exact hs
  | tick live =>
    obtain ⟨_, _, hg, hw, _, _⟩ := v.core.ending.tickAll_fields
    exact check_settled (hg.trans live) (hw.trans (hs.none live))
  | draw => exact ⟨hs.flag, hs.ended, hs.winner, hs.none⟩

theorem Reachable.settled {v : View} (h : Reachable v) : Settled v.core := by
  refine h.invariant (P := fun v => Settled v.core) ?_ fun _ _ => settled_step
  intro hand _
  refine ⟨Or.inl rfl, iff_of_false zero_ne_one8 ?_, fun h => absurd h zero_ne_one8, fun _ => rfl⟩
  change ¬ ((30 : Int16).toInt ≤ 0 ∨ (30 : Int16).toInt ≤ 0)
  decide

/-! ### Mana, hand and turn -/

/-- A hand of the server: three slots, each empty or holding a known card. -/
structure HandOk (h : Hand) : Prop where
  size : h.n = 3
  known : ∀ i, i < 3 → h.card i = 0 ∨ (getCardDef (h.card i)).isSome
  rest : ∀ i, 3 ≤ i → h.card i = 0

theorem HandOk.clear {h : Hand} (ok : HandOk h) (i : ℕ) : HandOk (h.clear i) := by
  refine ⟨ok.size, fun j hj => ?_, fun j hj => ?_⟩
  · rw [Hand.card_clear]
    split
    · exact Or.inl rfl
    · exact ok.known j hj
  · rw [Hand.card_clear]
    split
    · rfl
    · exact ok.rest j hj

theorem HandOk.after {h : Hand} (ok : HandOk h) (idx : UInt8) (x : Side) :
    HandOk (h.after idx x) := by
  cases x with
  | player => exact ok
  | ai => exact ok.clear _

theorem pool_known : ∀ id ∈ pool, (getCardDef id).isSome := by
  have h : pool.all (fun id => (getCardDef id).isSome) = true := by decide
  exact List.all_eq_true.mp h

theorem randCardId_known (r : ℕ) : (getCardDef (randCardId r)).isSome :=
  pool_known _ (List.get_mem _ _)

theorem dealHand_card (rng : ℕ → ℕ) {i : ℕ} (hi : i < 3) :
    (dealHand rng).card i = randCardId (rng i) := by
  rcases i with _ | _ | _ | i
  · rfl
  · rfl
  · rfl
  · omega

theorem Dealt.handOk {h : Hand} (hd : Dealt h) : HandOk h := by
  obtain ⟨rng, rfl⟩ := hd
  refine ⟨rfl, fun i hi => ?_, fun i hi => ?_⟩
  · rw [dealHand_card rng hi]
    exact Or.inr (randCardId_known _)
  · by_cases h8 : 8 ≤ i
    · exact Hand.card_past _ h8
    · rcases i with _ | _ | _ | _ | _ | _ | _ | _ | i <;> first | omega | rfl

structure Sane (v : View) : Prop where
  maxMana : v.core.maxMana = 3
  hand : HandOk v.hand
  turn : v.core.turn = 0 ∨ v.core.turn = 1
  account : spent v.trace + v.core.mana.toNat = 3

theorem pay_mana {c : Core} {card : CardDef} (h : card.cost ≤ c.mana) :
    (c.pay card).mana.toNat + card.cost.toNat = c.mana.toNat := by
  rw [UInt8.le_iff_toNat_le] at h
  have hb := Narrow.u8_bounds c.mana
  have hf : Narrow.FitsU8 ((c.mana.toNat : ℤ) - card.cost.toNat) := by constructor <;> omega
  have ht := Narrow.toNat_u8 hf
  change (Narrow.u8 ((c.mana.toNat : ℤ) - card.cost.toNat)).toNat + _ = _
  omega

theorem sane_step {v w : View} (h : Step v w) (hs : Sane v) : Sane w := by
  cases h with
  | @play x idx card live main turn ok =>
    obtain ⟨_, hk, hc⟩ := playable_iff.mp ok
    have hcost : Play.cost ⟨x, idx, v.core, v.hand, 0, v.core.played x card,
        v.hand.after idx x⟩ = card.cost.toNat := by simp [Play.cost, Play.card, hk]
    have hp := pay_mana hc
    have ha := hs.account
    refine ⟨by simp [hs.maxMana], hs.hand.after idx x, by simp [hs.turn], ?_⟩
    rw [spent_play, hcost, Core.played_mana]
    simp only [if_true]
    omega
  | @refuse idx live main turn no =>
    refine ⟨hs.maxMana, hs.hand, hs.turn, ?_⟩
    rw [spent_play, if_neg (refusal_ne_zero v.hand idx), Nat.zero_add]
    exact hs.account
  | tick live main turn =>
    obtain ⟨ht, _, _, _, hm, hmax⟩ := v.core.ending.tickAll_fields
    refine ⟨?_, hs.hand, ?_, ?_⟩
    · rw [Core.check_maxMana, hmax]
      exact hs.maxMana
    · rw [Core.check_turn, ht]
      exact hs.turn
    · rw [Core.check_mana, hm, spent_tick]
      exact hs.account
  | @draw x hand live ended turn dealt =>
    refine ⟨hs.maxMana, dealt.handOk, ?_, ?_⟩
    · change x.other.turn = 0 ∨ x.other.turn = 1
      cases x <;> decide
    · rw [spent_draw]
      change 0 + v.core.maxMana.toNat = 3
      rw [hs.maxMana]
      rfl

theorem Reachable.sane {v : View} (h : Reachable v) : Sane v := by
  refine h.invariant (P := Sane) ?_ fun _ _ => sane_step
  intro hand hd
  exact ⟨rfl, hd.handOk, Or.inl rfl, rfl⟩

end MiniTcg.Game
