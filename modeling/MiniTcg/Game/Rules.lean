import MiniTcg.Game.State

/-!
# Damage, poison, the end of the game and playing a card

The rule functions of `server.c` below the turn machinery. Each card effect is
split into its assignments to the state, `Core.applyCard`, and its log line,
`playText`; `playEffect` performs one after the other as the switch of
`handle_play_card` does.
-/
namespace MiniTcg.Game

/-! ### Damage and poison -/

/-- The shield's part of `apply_damage`: the shield left and the damage left. -/
def absorb (shield : Int16) (dmg : ℤ) : Int16 × ℤ :=
  if 0 < shield.toInt then
    let used := if dmg < shield.toInt then dmg else shield.toInt
    (Narrow.i16 (shield.toInt - used), dmg - used)
  else (shield, dmg)

/-- `apply_damage`, returning the new hp and shield. -/
def applyDamage (hp shield : Int16) (dmg : ℤ) : Int16 × Int16 :=
  if dmg ≤ 0 then (hp, shield)
  else
    let r := absorb shield dmg
    if 0 < r.2 then
      let hp := Narrow.i16 (hp.toInt - r.2)
      (if hp.toInt < 0 then 0 else hp, r.1)
    else (hp, r.1)

/-- One side's block of `tick_poison`, taken while its poison is positive. -/
def Core.tick (c : Core) (x : Side) : Core :=
  let c := c.setPoison (Narrow.u8 ((c.poison x).toNat - 1)) x
  let c := c.setHp (Narrow.i16 ((c.hp x).toInt - 2)) x
  if (c.hp x).toInt < 0 then c.setHp 0 x else c

def tickSide (st : State) (x : Side) (msg : String) : State :=
  if 0 < st.poison x then pushLog (st.update (·.tick x)) (text msg) else st

/-- `tick_poison`. -/
def tickPoison (st : State) : State :=
  tickSide (tickSide st .player "P takes poison (-2)") .ai "AI takes poison (-2)"

/-- The winner `check_game_over` records. -/
def Core.verdict (c : Core) : UInt8 :=
  if c.aiHp.toInt < c.pHp.toInt then 1
  else if c.pHp.toInt < c.aiHp.toInt then 2
  else 0

/-- `check_game_over`. -/
def checkGameOver (st : State) : State :=
  if st.gameOver ≠ 0 then st
  else if st.pHp.toInt ≤ 0 ∨ st.aiHp.toInt ≤ 0 then
    pushLog (st.update fun c => { c with gameOver := 1, winner := c.verdict }) (text "GAME OVER")
  else st

/-! ### Playing a card -/

/-- The damage an attack of printed value `v` does. -/
def Core.attack (c : Core) (x : Side) (v : ℤ) : ℤ := v + (c.buff x).toInt

/-- The assignments of each case of the switch in `handle_play_card`. -/
def Core.applyCard (c : Core) (x : Side) (v : Int16) : CardType → Core
  | .atk =>
    let dmg := c.attack x v.toInt
    let c := c.setBuff 0 x
    let r := applyDamage (c.hp x.other) (c.shield x.other) dmg
    (c.setHp r.1 x.other).setShield r.2 x.other
  | .heal => c.setHp (Narrow.i16 ((c.hp x).toInt + v.toInt)) x
  | .shield => c.setShield (Narrow.i16 ((c.shield x).toInt + v.toInt)) x
  | .buff => c.setBuff (Narrow.i16 ((c.buff x).toInt + v.toInt)) x
  | .poison =>
    c.setPoison (Narrow.u8 ((c.poison x.other).toNat + (Narrow.u8 v.toInt).toNat)) x.other

/-- The line each case logs; `mana` is what is left after paying. -/
def playText (c : Core) (x : Side) (v : Int16) (t : CardType) : String :=
  let who := match x with
    | .player => "P"
    | .ai => "AI"
  let left := ") [mana " ++ toString c.mana.toNat ++ "]"
  match t with
  | .atk => who ++ " ATK (" ++ toString (c.attack x v.toInt) ++ left
  | .heal => who ++ " HEAL (+" ++ toString v.toInt ++ left
  | .shield => who ++ " SHIELD (+" ++ toString v.toInt ++ left
  | .buff => who ++ " BUFF (+" ++ toString v.toInt ++ " next" ++ left
  | .poison => who ++ " POISON (+" ++ toString v.toInt ++ " turns" ++ left

/-- The switch of `handle_play_card`; `none` is its `default`. -/
def playEffect (st : State) (x : Side) (card : CardDef) : Option State :=
  match CardType.ofByte card.type with
  | none => none
  | some t => some (pushLog (st.update (·.applyCard x card.value t))
      (text (playText st.toCore x card.value t)))

/-- `handle_play_card`: the state it leaves and its return code. -/
def handlePlayCard (st : State) (hand : Hand) (x : Side) (idx : UInt8) : State × ℤ :=
  if hand.n ≤ idx then (st, -1)
  else
    let cid := hand.card idx.toNat
    if cid = 0 then (st, -3)
    else
      match getCardDef cid with
      | none => (st, -3)
      | some card =>
        if st.mana < card.cost then (st, -2)
        else
          let st := st.update fun c =>
            { c with mana := Narrow.u8 ((c.mana.toNat : ℤ) - card.cost.toNat) }
          match playEffect st x card with
          | none => (st, -3)
          | some st => (checkGameOver st, 0)

/-! ### What a play does

A play either hits a playable card and performs it whole, or leaves the state
untouched. -/

/-- The kind of a table card. -/
def CardDef.kind (card : CardDef) : CardType := (CardType.ofByte card.type).getD .atk

theorem kind_of_mem {card : CardDef} (h : card ∈ gCards) :
    CardType.ofByte card.type = some card.kind := by
  obtain ⟨t, ht⟩ := Option.isSome_iff_exists.mp (gCards_sane card h).2.2.2.2.2
  simp [CardDef.kind, ht]

/-- The card the checks of `handle_play_card` let through, if any. -/
def playable (c : Core) (hand : Hand) (idx : UInt8) : Option CardDef :=
  if idx < hand.n then (getCardDef (hand.card idx.toNat)).filter (fun card => card.cost ≤ c.mana)
  else none

/-- The code of a refused play, in the order of the checks. -/
def refusal (hand : Hand) (idx : UInt8) : ℤ :=
  if hand.n ≤ idx then -1
  else if getCardDef (hand.card idx.toNat) = none then -3
  else -2

theorem playable_iff {c : Core} {hand : Hand} {idx : UInt8} {card : CardDef} :
    playable c hand idx = some card ↔
      idx < hand.n ∧ getCardDef (hand.card idx.toNat) = some card ∧ card.cost ≤ c.mana := by
  unfold playable
  by_cases hi : idx < hand.n
  · simp [hi, Option.filter_eq_some_iff]
  · simp [hi]

theorem playable_mem {c : Core} {hand : Hand} {idx : UInt8} {card : CardDef}
    (h : playable c hand idx = some card) : card ∈ gCards :=
  (getCardDef_mem (playable_iff.mp h).2.1).1

theorem playable_card_ne_zero {c : Core} {hand : Hand} {idx : UInt8} {card : CardDef}
    (h : playable c hand idx = some card) : hand.card idx.toNat ≠ 0 := by
  intro hz
  have hk := (playable_iff.mp h).2.1
  rw [hz, getCardDef_zero] at hk
  cases hk

/-- `st->mana -= c->cost`. -/
def Core.pay (c : Core) (card : CardDef) : Core :=
  { c with mana := Narrow.u8 ((c.mana.toNat : ℤ) - card.cost.toNat) }

/-- The fields `check_game_over` leaves. -/
def Core.check (c : Core) : Core :=
  if c.gameOver ≠ 0 then c
  else if c.pHp.toInt ≤ 0 ∨ c.aiHp.toInt ≤ 0 then { c with gameOver := 1, winner := c.verdict }
  else c

/-- The fields a successful play leaves. -/
def Core.played (c : Core) (x : Side) (card : CardDef) : Core :=
  ((c.pay card).applyCard x card.value card.kind).check

section Fields
variable (c : Core) (x y : Side) (card : CardDef)

@[simp] theorem Core.table_applyCard (v : Int16) (t : CardType) :
    (c.applyCard x v t).table = c.table := by
  cases t <;> simp [Core.applyCard]

theorem Core.check_cases :
    c.check = c ∨ c.check = { c with gameOver := 1, winner := c.verdict } := by
  unfold Core.check
  split
  · exact Or.inl rfl
  · split
    · exact Or.inr rfl
    · exact Or.inl rfl

@[simp] theorem Core.check_turn : c.check.turn = c.turn := by
  rcases c.check_cases with h | h <;> rw [h]
@[simp] theorem Core.check_phase : c.check.phase = c.phase := by
  rcases c.check_cases with h | h <;> rw [h]
@[simp] theorem Core.check_mana : c.check.mana = c.mana := by
  rcases c.check_cases with h | h <;> rw [h]
@[simp] theorem Core.check_maxMana : c.check.maxMana = c.maxMana := by
  rcases c.check_cases with h | h <;> rw [h]
@[simp] theorem Core.check_hp : c.check.hp y = c.hp y := by
  rcases c.check_cases with h | h <;> rw [h]
  cases y <;> rfl
@[simp] theorem Core.check_shield : c.check.shield y = c.shield y := by
  rcases c.check_cases with h | h <;> rw [h]
  cases y <;> rfl
@[simp] theorem Core.check_buff : c.check.buff y = c.buff y := by
  rcases c.check_cases with h | h <;> rw [h]
  cases y <;> rfl
@[simp] theorem Core.check_poison : c.check.poison y = c.poison y := by
  rcases c.check_cases with h | h <;> rw [h]
  cases y <;> rfl

theorem Core.applyCard_fields (v : Int16) (t : CardType) :
    (c.applyCard x v t).turn = c.turn ∧ (c.applyCard x v t).phase = c.phase ∧
      (c.applyCard x v t).gameOver = c.gameOver ∧ (c.applyCard x v t).winner = c.winner ∧
      (c.applyCard x v t).mana = c.mana ∧ (c.applyCard x v t).maxMana = c.maxMana := by
  simpa only [Core.table, Prod.mk.injEq] using c.table_applyCard x v t

@[simp] theorem Core.played_turn : (c.played x card).turn = c.turn := by
  rw [Core.played, Core.check_turn, (Core.applyCard_fields _ _ _ _).1]
  rfl
@[simp] theorem Core.played_phase : (c.played x card).phase = c.phase := by
  rw [Core.played, Core.check_phase, (Core.applyCard_fields _ _ _ _).2.1]
  rfl
@[simp] theorem Core.played_mana : (c.played x card).mana = (c.pay card).mana := by
  rw [Core.played, Core.check_mana, (Core.applyCard_fields _ _ _ _).2.2.2.2.1]
@[simp] theorem Core.played_maxMana : (c.played x card).maxMana = c.maxMana := by
  rw [Core.played, Core.check_maxMana, (Core.applyCard_fields _ _ _ _).2.2.2.2.2]
  rfl

@[simp] theorem Core.table_tick : (c.tick x).table = c.table := by
  unfold Core.tick
  simp only
  split <;> simp

end Fields

@[simp] theorem checkGameOver_toCore (st : State) :
    (checkGameOver st).toCore = st.toCore.check := by
  unfold checkGameOver Core.check
  split
  · rfl
  · split <;> rfl

theorem handlePlayCard_ok {st : State} {hand : Hand} {idx : UInt8} {card : CardDef}
    (x : Side) (h : playable st.toCore hand idx = some card) :
    (handlePlayCard st hand x idx).2 = 0 ∧
      (handlePlayCard st hand x idx).1.toCore = st.toCore.played x card := by
  have hm := kind_of_mem (playable_mem h)
  have hz := playable_card_ne_zero h
  obtain ⟨hi, hk, hc⟩ := playable_iff.mp h
  have hn : ¬ hand.n ≤ idx := UInt8.not_le.mpr hi
  have hc' : ¬ st.mana < card.cost := UInt8.not_lt.mpr hc
  simp only [handlePlayCard, hn, hz, hk, hc', playEffect, hm, ↓reduceIte, checkGameOver_toCore,
    pushLog_toCore, State.update_toCore, true_and]
  rfl

theorem handlePlayCard_refused {st : State} {hand : Hand} {idx : UInt8} (x : Side)
    (h : playable st.toCore hand idx = none) :
    handlePlayCard st hand x idx = (st, refusal hand idx) := by
  unfold playable at h
  unfold handlePlayCard refusal
  by_cases hi : idx < hand.n
  · have hn : ¬ hand.n ≤ idx := UInt8.not_le.mpr hi
    simp only [hi, hn, ↓reduceIte] at h ⊢
    by_cases hz : hand.card idx.toNat = 0
    · simp [hz, getCardDef_zero]
    · cases hk : getCardDef (hand.card idx.toNat) with
      | none => simp [hz]
      | some card =>
        have hc : st.mana < card.cost := by
          rw [hk] at h
          simpa [Option.filter, UInt8.not_le] using h
        simp [hz, hc]
  · have hn : hand.n ≤ idx := UInt8.not_lt.mp hi
    simp [hn]

theorem refusal_ne_zero (hand : Hand) (idx : UInt8) : refusal hand idx ≠ 0 := by
  unfold refusal
  split
  · decide
  · split <;> decide

/-- A play succeeds exactly on a playable card. -/
theorem handlePlayCard_rc (st : State) (hand : Hand) (x : Side) (idx : UInt8) :
    (handlePlayCard st hand x idx).2 = 0 ↔ (playable st.toCore hand idx).isSome := by
  cases h : playable st.toCore hand idx with
  | none => simp [handlePlayCard_refused x h, refusal_ne_zero]
  | some card => simp [(handlePlayCard_ok x h).1]

/-- The codes of a refused play. -/
theorem refusal_codes {c : Core} {hand : Hand} {idx : UInt8} (hp : playable c hand idx = none) :
    (refusal hand idx = -1 ↔ hand.n ≤ idx) ∧
    (refusal hand idx = -3 ↔ idx < hand.n ∧
      (hand.card idx.toNat = 0 ∨ getCardDef (hand.card idx.toNat) = none)) ∧
    (refusal hand idx = -2 ↔ idx < hand.n ∧
      ∃ card, getCardDef (hand.card idx.toNat) = some card ∧ c.mana < card.cost) := by
  unfold refusal
  by_cases hn : hand.n ≤ idx
  · have hi : ¬ idx < hand.n := UInt8.not_lt.mpr hn
    rw [if_pos hn]
    exact ⟨iff_of_true rfl hn, iff_of_false (by decide) fun h => hi h.1,
      iff_of_false (by decide) fun h => hi h.1⟩
  · have hi : idx < hand.n := UInt8.not_le.mp hn
    rw [if_neg hn]
    cases hk : getCardDef (hand.card idx.toNat) with
    | none =>
      rw [if_pos rfl]
      refine ⟨iff_of_false (by decide) hn, iff_of_true rfl ⟨hi, Or.inr rfl⟩,
        iff_of_false (by decide) ?_⟩
      rintro ⟨_, _, hcard, _⟩
      cases hcard
    | some card =>
      have hlt : c.mana < card.cost := by
        by_contra hge
        have hplay := playable_iff.mpr ⟨hi, hk, UInt8.not_lt.mp hge⟩
        rw [hp] at hplay
        cases hplay
      rw [if_neg (by simp)]
      refine ⟨iff_of_false (by decide) hn, iff_of_false (by decide) ?_,
        iff_of_true rfl ⟨hi, card, rfl, hlt⟩⟩
      rintro ⟨_, hz | hnone⟩
      · rw [hz, getCardDef_zero] at hk
        cases hk
      · cases hnone

/-- The codes of `handle_play_card`, in the order of its checks; a refused play
leaves every field, and a known card always has an effect. -/
theorem handlePlayCard_codes (st : State) (hand : Hand) (x : Side) (idx : UInt8) :
    ((handlePlayCard st hand x idx).2 = -1 ↔ hand.n ≤ idx) ∧
    ((handlePlayCard st hand x idx).2 = -3 ↔ idx < hand.n ∧
      (hand.card idx.toNat = 0 ∨ getCardDef (hand.card idx.toNat) = none)) ∧
    ((handlePlayCard st hand x idx).2 = -2 ↔ idx < hand.n ∧
      ∃ card, getCardDef (hand.card idx.toNat) = some card ∧ st.mana < card.cost) ∧
    ((handlePlayCard st hand x idx).2 ≠ 0 → (handlePlayCard st hand x idx).1 = st) ∧
    ∀ card, getCardDef (hand.card idx.toNat) = some card → ∀ st', playEffect st' x card ≠ none := by
  have hlate : ∀ card, getCardDef (hand.card idx.toNat) = some card →
      ∀ st', playEffect st' x card ≠ none := by
    intro card hk st' hnone
    unfold playEffect at hnone
    rw [kind_of_mem (getCardDef_mem hk).1] at hnone
    cases hnone
  cases hp : playable st.toCore hand idx with
  | none =>
    obtain ⟨h1, h3, h2⟩ := refusal_codes hp
    rw [handlePlayCard_refused x hp]
    exact ⟨h1, h3, h2, fun _ => rfl, hlate⟩
  | some card =>
    obtain ⟨hrc, _⟩ := handlePlayCard_ok x hp
    obtain ⟨hi, hk, hc⟩ := playable_iff.mp hp
    rw [hrc]
    refine ⟨iff_of_false (by decide) (UInt8.not_le.mpr hi), iff_of_false (by decide) ?_,
      iff_of_false (by decide) ?_, fun h => absurd rfl h, hlate⟩
    · rintro ⟨_, hz | hn⟩
      · exact playable_card_ne_zero hp hz
      · rw [hk] at hn
        cases hn
    · rintro ⟨_, other, ho, hlt⟩
      obtain rfl := Option.some.inj (hk.symm.trans ho)
      exact UInt8.not_lt.mpr hc hlt

end MiniTcg.Game
