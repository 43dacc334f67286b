import MiniTcg.Game.Ledger
import MiniTcg.Game.Overflow
import MiniTcg.Game.Slots

/-!
# How fast a match moves

Three mana a turn buy at most nine points of damage and three turns of poison. So nobody
falls before the other side's fourth turn, and no field leaves its range before the 254th.
-/
namespace MiniTcg.Game

open MiniTcg.Wire

/-! ### What mana buys -/

/-- A card of value `v` and kind `k` is worth its cost `c`. -/
structure Fair (k : CardType) (v c : ℤ) : Prop where
  pos : 0 < v
  damage : v ≤ 3 * c
  poison : k = .poison → v ≤ c

theorem gCards_fair : ∀ card ∈ gCards, Fair card.kind card.value.toInt card.cost.toNat := by
  have h : ∀ card ∈ gCards, 0 < card.value.toInt ∧ card.value.toInt ≤ 3 * (card.cost.toNat : ℤ) ∧
      (card.kind = .poison → card.value.toInt ≤ card.cost.toNat) := by decide
  intro card hm
  obtain ⟨hpos, hdamage, hpoison⟩ := h card hm
  exact ⟨hpos, hdamage, hpoison⟩

/-- One side after it has paid `mine` and the other side `theirs`: what it has gained, and
what it has left against the damage that is done, buffed and brewed. -/
structure Bought (own enemy : Sheet) (mine theirs : ℤ) : Prop where
  hp : 0 ≤ own.hp ∧ own.hp ≤ 30 + 3 * mine
  shield : 0 ≤ own.shield ∧ own.shield ≤ 3 * mine
  buff : 0 ≤ own.buff ∧ own.buff ≤ 3 * mine
  poison : 0 ≤ own.poison
  threat : 30 + enemy.buff + 2 * own.poison ≤ own.hp + 3 * theirs

def AllBought (T : Table) (m : Side → ℤ) : Prop :=
  ∀ x, Bought (T x) (T x.other) (m x) (m x.other)

/-- Side `x` pays `c` more. -/
def spend (m : Side → ℤ) (x : Side) (c : ℤ) : Side → ℤ := fun y => m y + if y = x then c else 0

section Abstract
variable {T : Table} {m : Side → ℤ} {x : Side} {k : CardType} {v c : ℤ}

theorem AllBought.of_sides (hx : Bought (T x) (T x.other) (m x) (m x.other))
    (ho : Bought (T x.other) (T x) (m x.other) (m x)) : AllBought T m := by
  intro y
  rcases Side.eq_or_other y x with rfl | rfl
  · exact hx
  · rw [Side.other_other]
    exact ho

theorem AllBought.sides (h : AllBought T m) (x : Side) :
    Bought (T x) (T x.other) (m x) (m x.other) ∧ Bought (T x.other) (T x) (m x.other) (m x) := by
  have ho := h x.other
  rw [Side.other_other] at ho
  exact ⟨h x, ho⟩

theorem spend_self (m : Side → ℤ) (x : Side) (c : ℤ) : spend m x c x = m x + c := by
  rw [spend, if_pos rfl]

theorem spend_other (m : Side → ℤ) (x : Side) (c : ℤ) : spend m x c x.other = m x.other := by
  rw [spend, if_neg (Side.other_ne x), add_zero]

/-- A hit takes at most its damage, and only from the hit points and the shield. -/
theorem Sheet.hit_takes {s : Sheet} {dmg : ℤ} (hd : 0 < dmg) :
    s.hp - dmg ≤ (s.hit dmg).hp ∧ (s.hit dmg).shield ≤ s.shield := by
  have hused : 0 ≤ s.used dmg := by
    unfold Sheet.used
    split <;> omega
  rw [Sheet.hit, if_neg (by omega)]
  constructor
  · simp only
    split <;> omega
  · simp only
    omega

theorem AllBought.play_atk (h : AllBought T m) (fair : Fair .atk v c) :
    AllBought (T.play x v .atk) (spend m x c) := by
  obtain ⟨hx, ho⟩ := h.sides x
  have hself : T.play x v .atk x = { T x with buff := 0 } := by
    simp [Table.play, Table.set, (Side.other_ne x).symm]
  have hother : T.play x v .atk x.other = (T x.other).hit (v + (T x).buff) := by
    simp [Table.play, Table.set]
  have hpos := fair.pos
  have hdamage := fair.damage
  have hbuff := hx.buff
  obtain ⟨hrest, hpoison⟩ := (T x.other).hit_rest (v + (T x).buff)
  obtain ⟨hnhp, hnshield, _⟩ :=
    Sheet.hit_nonNeg (v + (T x).buff) ⟨ho.hp.1, ho.shield.1, ho.buff.1⟩
  have hle := Sheet.hit_hp_le (v + (T x).buff) ho.hp.1
  obtain ⟨htakes, hshield⟩ :=
    Sheet.hit_takes (s := T x.other) (by omega : 0 < v + (T x).buff)
  have hhp := hx.hp
  have hsh := hx.shield
  have hthreat := hx.threat
  have hhp' := ho.hp
  have hsh' := ho.shield
  have hthreat' := ho.threat
  refine AllBought.of_sides (x := x) ?_ ?_
  · rw [hself, hother, spend_self, spend_other]
    refine ⟨?_, ?_, ?_, hx.poison, ?_⟩
    · exact ⟨hhp.1, by simp only; omega⟩
    · exact ⟨hsh.1, by simp only; omega⟩
    · exact ⟨le_refl _, by simp only; omega⟩
    · rw [hrest]
      exact hthreat
  · rw [hself, hother, spend_self, spend_other]
    refine ⟨⟨hnhp, by omega⟩, ⟨hnshield, by omega⟩, ?_, ?_, ?_⟩
    · rw [hrest]
      exact ho.buff
    · rw [hpoison]
      exact ho.poison
    · rw [hpoison]
      simp only
      omega

theorem AllBought.play_add (h : AllBought T m) (fair : Fair k v c) (hk : k ≠ .atk) :
    AllBought (T.play x v k) (spend m x c) := by
  obtain ⟨hx, ho⟩ := h.sides x
  obtain ⟨hself, hother⟩ := Table.play_add hk T x v
  obtain ⟨hpos, hdamage, hpoison⟩ := fair
  obtain ⟨hhp, hshield, hbuff, hpois, hthreat⟩ := hx
  obtain ⟨ohp, oshield, obuff, opois, othreat⟩ := ho
  refine AllBought.of_sides (x := x) ?_ ?_
  · rw [hself, hother, spend_self, spend_other]
    cases k with
    | atk => exact absurd rfl hk
    | heal | shield | buff | poison =>
      constructor <;> simp only [reduceCtorEq, if_true, if_false] <;> omega
  · rw [hself, hother, spend_self, spend_other]
    cases k with
    | atk => exact absurd rfl hk
    | poison =>
      have hcheap := hpoison rfl
      constructor <;> simp only [reduceCtorEq, if_true, if_false] <;> omega
    | heal | shield | buff =>
      constructor <;> simp only [reduceCtorEq, if_true, if_false] <;> omega

theorem AllBought.play (h : AllBought T m) (fair : Fair k v c) :
    AllBought (T.play x v k) (spend m x c) := by
  by_cases hk : k = .atk
  · subst hk
    exact h.play_atk fair
  · exact h.play_add fair hk

/-- A tick takes two hit points for each turn of poison that is used up. -/
theorem AllBought.tick (h : AllBought T m) : AllBought T.tick m := by
  intro x
  obtain ⟨hhp, hshield, hbuff, hpoison, hthreat⟩ := h x
  have hother : (T.tick x.other).buff = (T x.other).buff := by
    rw [Table.tick, Sheet.tick]
    split <;> rfl
  have hself : T.tick x = (T x).tick := rfl
  rw [hself, Sheet.tick]
  split
  · refine ⟨?_, hshield, hbuff, ?_, ?_⟩
    · simp only
      omega
    · simp only
      omega
    · rw [hother]
      simp only
      omega
  · refine ⟨hhp, hshield, hbuff, hpoison, ?_⟩
    rw [hother]
    exact hthreat

end Abstract

/-! ### Turns and mana of a history -/

/-- The turns a side has begun. -/
def turns : List Event → Side → ℕ
  | [], _ => 0
  | .draw turn _ :: t, x => turns t x + if turn = x.turn then 1 else 0
  | .play _ :: t, x => turns t x
  | .tick _ :: t, x => turns t x

/-- The mana a side has paid for its successful plays. -/
def paid : List Event → Side → ℕ
  | [], _ => 0
  | .play p :: t, x => paid t x + if p.rc = 0 ∧ p.side = x then p.cost else 0
  | .draw _ _ :: t, x => paid t x
  | .tick _ :: t, x => paid t x

theorem turns_mono (e : Event) (t : List Event) (x : Side) : turns t x ≤ turns (e :: t) x := by
  cases e with
  | draw turn hand => exact Nat.le_add_right _ _
  | play p => exact le_refl _
  | tick c => exact le_refl _

theorem paid_play {x : Side} {idx : UInt8} {c c' : Core} {hand hand' : Hand} {card : CardDef}
    (hk : getCardDef (hand.card idx.toNat) = some card) (t : List Event) (y : Side) :
    paid (.play ⟨x, idx, c, hand, 0, c', hand'⟩ :: t) y =
      paid t y + if y = x then card.cost.toNat else 0 := by
  have hcost : Play.cost ⟨x, idx, c, hand, 0, c', hand'⟩ = card.cost.toNat := by
    simp [Play.cost, Play.card, hk]
  simp [paid, hcost, eq_comm]

theorem Side.turn_iff {x y : Side} : x.turn = y.turn ↔ x = y := ⟨Side.turn_inj, congrArg Side.turn⟩

theorem turns_draw (x : Side) (hand : Hand) (t : List Event) (y : Side) :
    turns (.draw x.turn hand :: t) y = turns t y + if y = x then 1 else 0 := by
  simp only [turns, Side.turn_iff, eq_comm]

/-- The sides take turns, and each pays at most three mana in one. -/
structure Paced (v : View) : Prop where
  mover : ∀ x, v.core.turn = x.turn → paid v.trace x + v.core.mana.toNat ≤ 3 * turns v.trace x
  cap : ∀ x, paid v.trace x ≤ 3 * turns v.trace x
  first : v.core.turn = 0 → turns v.trace .player = turns v.trace .ai + 1
  second : v.core.turn = 1 → turns v.trace .player = turns v.trace .ai

theorem paced_start (hand : Hand) : Paced (View.start hand) := by
  refine ⟨fun x hx => ?_, fun x => Nat.zero_le _, fun _ => rfl, fun h => by cases h⟩
  cases x with
  | player => exact le_refl 3
  | ai => cases hx

theorem paced_step {v w : View} (hstep : Step v w) (hs : Sane v) (h : Paced v) : Paced w := by
  cases hstep with
  | @play x idx card live main turn ok =>
    obtain ⟨_, hk, hc⟩ := playable_iff.mp ok
    have hpay := pay_mana hc
    have hmover := h.mover x turn
    refine ⟨fun y hy => ?_, fun y => ?_, ?_, ?_⟩
    · rw [Core.played_turn, turn, Side.turn_iff] at hy
      subst hy
      rw [paid_play hk, if_pos rfl, Core.played_mana]
      show _ ≤ 3 * turns v.trace x
      omega
    · rw [paid_play hk]
      show _ ≤ 3 * turns v.trace y
      have hcap := h.cap y
      split
      · rename_i hy
        subst hy
        omega
      · exact hcap
    · rw [Core.played_turn]
      exact h.first
    · rw [Core.played_turn]
      exact h.second
  | @refuse idx live main turn no =>
    have hsame : ∀ y, paid (.play ⟨.player, idx, v.core, v.hand, refusal v.hand idx, v.core,
        v.hand⟩ :: v.trace) y = paid v.trace y := by
      intro y
      rw [paid, if_neg fun hrc => refusal_ne_zero v.hand idx hrc.1, Nat.add_zero]
    refine ⟨fun y hy => ?_, fun y => ?_, h.first, h.second⟩
    · rw [hsame]
      exact h.mover y hy
    · rw [hsame]
      exact h.cap y
  | tick live main turn =>
    obtain ⟨hturn, _, _, _, hmana, _⟩ := v.core.ending.tickAll_fields
    refine ⟨fun y hy => ?_, h.cap, ?_, ?_⟩
    · rw [Core.check_turn, hturn] at hy
      rw [Core.check_mana, hmana]
      exact h.mover y hy
    · rw [Core.check_turn, hturn]
      exact h.first
    · rw [Core.check_turn, hturn]
      exact h.second
  | @draw x hand live ended turn dealt =>
    have hmax : v.core.maxMana.toNat = 3 := by
      rw [hs.maxMana]
      rfl
    have hturns := turns_draw x.other hand v.trace
    refine ⟨fun y hy => ?_, fun y => ?_, fun hy => ?_, fun hy => ?_⟩
    · have hyx : x.other = y := Side.turn_inj hy
      subst hyx
      have hcap := h.cap x.other
      rw [hturns, if_pos rfl]
      show paid v.trace x.other + v.core.maxMana.toNat ≤ _
      omega
    · have hcap := h.cap y
      rw [hturns]
      show paid v.trace y ≤ _
      omega
    · have hx : x.other = .player := Side.turn_inj hy
      have hself : x = .ai := by
        cases x with
        | player => cases hx
        | ai => rfl
      subst hself
      have hsecond := h.second turn
      rw [hturns, hturns, if_pos hx.symm, if_neg (by decide)]
      omega
    · have hx : x.other = .ai := Side.turn_inj hy
      have hself : x = .player := by
        cases x with
        | player => rfl
        | ai => cases hx
      subst hself
      have hfirst := h.first turn
      rw [hturns, hturns, if_pos hx.symm, if_neg (by decide)]
      omega

theorem Reachable.paced {v : View} (h : Reachable v) : Paced v := by
  have hboth : Sane v ∧ Paced v := by
    refine h.invariant (P := fun v => Sane v ∧ Paced v) ?_ ?_
    · intro hand hd
      exact ⟨Reachable.sane ⟨hand, hd, .refl⟩, paced_start hand⟩
    · rintro v w hstep ⟨hs, hp⟩
      exact ⟨sane_step hstep hs, paced_step hstep hs hp⟩
  exact hboth.2

/-! ### The fields stay in range -/

/-- The poison of side `x`, by whose turn it is: the poisoner gains one turn of it a turn, as
the two ticks of a round take two, and its mana not yet spent is poison to come. -/
structure Brewed (v : View) (x : Side) : Prop where
  brewing : v.core.phase = .main → v.core.turn = x.other.turn →
    (v.core.sheet x).poison + v.core.mana.toNat ≤ turns v.trace x.other + 2
  brewed : v.core.phase = .ending → v.core.turn = x.other.turn →
    (v.core.sheet x).poison ≤ turns v.trace x.other + 1
  drinking : v.core.phase = .main → v.core.turn = x.turn →
    (v.core.sheet x).poison ≤ turns v.trace x.other + 1
  drunk : v.core.phase = .ending → v.core.turn = x.turn →
    (v.core.sheet x).poison ≤ turns v.trace x.other

structure InRange (v : View) : Prop where
  room : AllRoom v.trace
  bought : AllBought v.core.sheet fun x => (paid v.trace x : ℤ)
  brewed : ∀ x, Brewed v x

theorem Table.play_poison (T : Table) (x : Side) (v : ℤ) (k : CardType) (y : Side) :
    (T.play x v k y).poison = (T y).poison + if k = .poison ∧ y = x.other then v else 0 := by
  cases k with
  | atk =>
    obtain ⟨_, hpoison⟩ := (T x.other).hit_rest (v + (T x).buff)
    by_cases hy : y = x.other
    · subst hy
      simp [Table.play, Table.set, hpoison]
    · by_cases hx : y = x
      · subst hx
        simp [Table.play, Table.set, hy]
      · simp [Table.play, Table.set, hy, hx]
  | heal | shield | buff =>
    by_cases hx : y = x
    · subst hx
      simp [Table.play, Table.set]
    · simp [Table.play, Table.set, hx]
  | poison =>
    by_cases hy : y = x.other
    · subst hy
      simp [Table.play, Table.set]
    · simp [Table.play, Table.set, hy]

theorem Sheet.tick_poison (s : Sheet) :
    s.tick.poison = if 0 < s.poison then s.poison - 1 else s.poison := by
  rw [Sheet.tick]
  split <;> rfl

theorem main_ne_ending : ¬ Phase.main = .ending := by decide

section Step
variable {v : View} {x : Side} {card : CardDef}

/-- In the first 253 turns the field of the next card has room. -/
theorem InRange.next (h : InRange v) (hp : Paced v) (hfew : ∀ y, turns v.trace y ≤ 253)
    (main : v.core.phase = .main) (turn : v.core.turn = x.turn) (hm : card ∈ gCards)
    (hc : card.cost ≤ v.core.mana) : Room v.core x card.value.toInt card.kind := by
  obtain ⟨hx, ho⟩ := h.bought.sides x
  obtain ⟨hpos, hdamage, hpoison⟩ := gCards_fair card hm
  have hcap := hp.cap x
  have hmover := hp.mover x turn
  have hfewx := hfew x
  have hcost : card.cost.toNat ≤ v.core.mana.toNat := UInt8.le_iff_toNat_le.mp hc
  have hbrew := (h.brewed x.other).brewing main (by rw [Side.other_other]; exact turn)
  rw [Side.other_other] at hbrew
  have hhp : (v.core.hp x).toInt ≤ 30 + 3 * paid v.trace x := hx.hp.2
  have hshield : (v.core.shield x).toInt ≤ 3 * paid v.trace x := hx.shield.2
  have hbuff : (v.core.buff x).toInt ≤ 3 * paid v.trace x := hx.buff.2
  have hhp' : 0 ≤ (v.core.hp x.other).toInt := ho.hp.1
  have hbrew' : ((v.core.poison x.other).toNat : ℤ) + v.core.mana.toNat ≤ turns v.trace x + 2 :=
    hbrew
  generalize card.kind = k at hpoison ⊢
  cases k with
  | poison =>
    have hcheap := hpoison rfl
    show ((v.core.poison x.other).toNat : ℤ) + card.value.toInt ≤ 255
    omega
  | atk =>
    show card.value.toInt + (v.core.buff x).toInt - max 0 (v.core.shield x.other).toInt -
      (v.core.hp x.other).toInt ≤ 32768
    omega
  | heal =>
    show (v.core.hp x).toInt + card.value.toInt ≤ 32767
    omega
  | shield =>
    show (v.core.shield x).toInt + card.value.toInt ≤ 32767
    omega
  | buff =>
    show (v.core.buff x).toInt + card.value.toInt ≤ 32767
    omega

theorem inRange_start (hand : Hand) : InRange (View.start hand) := by
  have hsheet : ∀ y, (View.start hand).core.sheet y = ⟨30, 0, 0, 0⟩ := by
    intro y
    cases y <;> rfl
  have hmana : (View.start hand).core.mana.toNat = 3 := rfl
  refine ⟨?_, fun y => ?_, fun y => ?_⟩
  · intro e he
    rw [List.mem_singleton.mp he]
    trivial
  · rw [hsheet, hsheet]
    show Bought _ _ (0 : ℤ) 0
    constructor <;> simp
  · refine ⟨fun _ hy => ?_, fun hend => ?_, fun _ _ => ?_, fun hend => ?_⟩
    · rw [hsheet, hmana]
      have hother : Side.player = y.other := Side.turn_inj hy
      have hone : turns (View.start hand).trace .player = 1 := rfl
      rw [← hother, hone]
      decide
    · cases hend
    · rw [hsheet]
      exact Int.le_add_one (Int.natCast_nonneg _)
    · cases hend

/-- A card of side `x` on the poison of either side. -/
theorem Brewed.play {y : Side} {w : View} (h : Brewed v y) (main : v.core.phase = .main)
    (turn : v.core.turn = x.turn) (hm : card ∈ gCards) (hc : card.cost ≤ v.core.mana)
    (hphase : w.core.phase = v.core.phase) (hturn : w.core.turn = v.core.turn)
    (hmana : w.core.mana = (v.core.pay card).mana) (hturns : turns w.trace = turns v.trace)
    (hsheet : w.core.sheet = v.core.sheet.play x card.value.toInt card.kind) : Brewed w y := by
  have hfair := gCards_fair card hm
  have hpay := pay_mana hc
  have hnot : ¬ w.core.phase = .ending := by
    rw [hphase, main]
    exact main_ne_ending
  have hpoison := Table.play_poison v.core.sheet x card.value.toInt card.kind y
  refine ⟨fun _ hy => ?_, fun hend => absurd hend hnot, fun _ hy => ?_, fun hend => absurd hend hnot⟩
  · rw [hturn] at hy
    have hbrew := h.brewing main hy
    rw [hsheet, hpoison, hturns, hmana]
    split
    · rename_i hkind
      have hcheap := hfair.poison hkind.1
      omega
    · omega
  · rw [hturn] at hy
    have hself : y = x := Side.turn_inj (hy.symm.trans turn)
    have hdrink := h.drinking main hy
    rw [hsheet, hpoison, hturns, if_neg fun hkind => Side.other_ne x (hself ▸ hkind.2).symm]
    omega

theorem inRange_step {w : View} (hstep : Step v w) (hs : Sane v) (hp : Paced v)
    (h : (∀ y, turns v.trace y ≤ 253) → InRange v) (hfew : ∀ y, turns w.trace y ≤ 253) :
    InRange w := by
  have hfew' : ∀ y, turns v.trace y ≤ 253 := by
    intro y
    refine le_trans ?_ (hfew y)
    cases hstep <;> exact turns_mono _ _ _
  have hv := h hfew'
  cases hstep with
  | @play x idx card live main turn ok =>
    obtain ⟨_, hk, hc⟩ := playable_iff.mp ok
    have hm := playable_mem ok
    have hroom := hv.next hp hfew' main turn hm hc
    have hsheet := played_sheet hm hroom
    have hpaid : (fun y => (paid (.play ⟨x, idx, v.core, v.hand, 0, v.core.played x card,
        v.hand.after idx x⟩ :: v.trace) y : ℤ)) =
          spend (fun y => (paid v.trace y : ℤ)) x card.cost.toNat := by
      funext y
      rw [paid_play hk, spend]
      split <;> omega
    refine ⟨List.forall_mem_cons.mpr ⟨?_, hv.room⟩, ?_, fun y => ?_⟩
    · intro _ card' hcard'
      have hcard : Play.card ⟨x, idx, v.core, v.hand, 0, v.core.played x card,
          v.hand.after idx x⟩ = some card := hk
      rw [hcard] at hcard'
      rw [List.mem_singleton.mp hcard']
      exact hroom
    · rw [hsheet, hpaid]
      exact hv.bought.play (gCards_fair card hm)
    · exact (hv.brewed y).play main turn hm hc (Core.played_phase ..) (Core.played_turn ..)
        (Core.played_mana ..) rfl hsheet
  | @refuse idx live main turn no =>
    have hsame : ∀ y, paid (.play ⟨.player, idx, v.core, v.hand, refusal v.hand idx, v.core,
        v.hand⟩ :: v.trace) y = paid v.trace y := by
      intro y
      rw [paid, if_neg fun hrc => refusal_ne_zero v.hand idx hrc.1, Nat.add_zero]
    refine ⟨List.forall_mem_cons.mpr ⟨?_, hv.room⟩, ?_, fun y => ?_⟩
    · intro hrc
      exact absurd hrc (refusal_ne_zero v.hand idx)
    · simp only [hsame]
      exact hv.bought
    · obtain ⟨hbrewing, hbrewed, hdrinking, hdrunk⟩ := hv.brewed y
      exact ⟨hbrewing, hbrewed, hdrinking, hdrunk⟩
  | @tick x live main turn =>
    obtain ⟨hturn, hphase, _, _, _, _⟩ := v.core.ending.tickAll_fields
    have hsheet : v.core.ending.tickAll.check.sheet = v.core.sheet.tick := by
      rw [Core.sheet_check]
      exact tickAll_sheet fun y => (hv.bought y).hp.1
    refine ⟨List.forall_mem_cons.mpr ⟨trivial, hv.room⟩, ?_, fun y => ?_⟩
    · rw [hsheet]
      exact hv.bought.tick
    · have hnot : ¬ v.core.ending.tickAll.check.phase = .main := by
        rw [Core.check_phase, hphase]
        exact fun hmain => by cases hmain
      have hpoison := Sheet.tick_poison (v.core.sheet y)
      have hself : v.core.sheet.tick y = (v.core.sheet y).tick := rfl
      refine ⟨fun hmain => absurd hmain hnot, fun _ hy => ?_, fun hmain => absurd hmain hnot,
        fun _ hy => ?_⟩
      · rw [Core.check_turn, hturn] at hy
        have hbrew := (hv.brewed y).brewing main hy
        rw [hsheet, hself, hpoison]
        show _ ≤ (turns v.trace y.other : ℤ) + 1
        split <;> omega
      · rw [Core.check_turn, hturn] at hy
        have hdrink := (hv.brewed y).drinking main hy
        rw [hsheet, hself, hpoison]
        show _ ≤ (turns v.trace y.other : ℤ)
        split <;> omega
  | @draw x hand live ended turn dealt =>
    have hsheet : (v.core.enter x.other.turn).sheet = v.core.sheet := by
      funext y
      cases y <;> rfl
    have hmana : (v.core.enter x.other.turn).mana.toNat = 3 := by
      show v.core.maxMana.toNat = 3
      rw [hs.maxMana]
      rfl
    have hturns := turns_draw x.other hand v.trace
    have hnot : ¬ (v.core.enter x.other.turn).phase = .ending := main_ne_ending
    refine ⟨List.forall_mem_cons.mpr ⟨trivial, hv.room⟩, ?_, fun y => ?_⟩
    · rw [hsheet]
      exact hv.bought
    · refine ⟨fun _ hy => ?_, fun hend => absurd hend hnot, fun _ hy => ?_,
        fun hend => absurd hend hnot⟩
      · have hyx : x.other = y.other := Side.turn_inj hy
        have hy' : x = y := by
          rw [← Side.other_other x, hyx, Side.other_other]
        have hdrunk := (hv.brewed y).drunk ended (hy' ▸ turn)
        rw [hsheet, hmana, hturns, if_pos hyx.symm]
        push_cast
        omega
      · have hyx : x.other = y := Side.turn_inj hy
        have hbrew := (hv.brewed y).brewed ended (by rw [← hyx, Side.other_other]; exact turn)
        rw [hsheet, hturns]
        push_cast
        omega

end Step

theorem Reachable.inRange {v : View} (h : Reachable v) (hfew : ∀ x, turns v.trace x ≤ 253) :
    InRange v := by
  have hall : Sane v ∧ Paced v ∧ ((∀ x, turns v.trace x ≤ 253) → InRange v) := by
    refine h.invariant
      (P := fun v => Sane v ∧ Paced v ∧ ((∀ x, turns v.trace x ≤ 253) → InRange v)) ?_ ?_
    · intro hand hd
      exact ⟨Reachable.sane ⟨hand, hd, .refl⟩, paced_start hand, fun _ => inRange_start hand⟩
    · rintro v w hstep ⟨hs, hp, hin⟩
      exact ⟨sane_step hstep hs, paced_step hstep hs hp, inRange_step hstep hs hp hin⟩
  exact hall.2.2 hfew

/-- A side loses at most nine hit points for each turn of the other. -/
theorem InRange.loses {v : View} (h : InRange v) (hp : Paced v) (x : Side) :
    30 ≤ (v.core.hp x).toInt + 9 * turns v.trace x.other := by
  obtain ⟨hx, ho⟩ := h.bought.sides x
  have hthreat : 30 + (v.core.sheet x.other).buff + 2 * (v.core.sheet x).poison ≤
      (v.core.hp x).toInt + 3 * paid v.trace x.other := hx.threat
  have hbuff := ho.buff
  have hpoison := hx.poison
  have hcap := hp.cap x.other
  omega

/-! ### The turns of a playout -/

section Count
variable {g : Match}

theorem turns_enterTurn (g : Match) (x y : Side) :
    turns (enterTurn g x.turn).trace y = turns g.trace y + if y = x then 1 else 0 :=
  turns_draw x (dealHand g.rng) g.trace y

/-- The end of the turn of `x` starts at most the turn of the other side. -/
theorem turns_phaseEnd {x : Side} (turn : g.st.turn = x.turn) (y : Side) :
    turns (phaseEnd g).trace y ≤ turns g.trace y + if y = x.other then 1 else 0 := by
  have htick : turns (phaseTick g).trace y = turns g.trace y := rfl
  simp only [phaseEnd]
  split
  · rw [htick]
    exact Nat.le_add_right _ _
  · rw [phaseTick_turn, turn, Side.turn_other, turns_enterTurn, htick]

theorem turns_aiLoopUpTo (k : ℕ) (g : Match) (y : Side) :
    turns (aiLoopUpTo k g).trace y = turns g.trace y := by
  induction k generalizing g with
  | zero => rfl
  | succ k ih =>
    rw [aiLoopUpTo]
    split
    · cases aiBest g.st.toCore g.hand with
      | none => rfl
      | some i => exact ih (aiPlay g i)
    · rfl

theorem turns_processAiTurn (turn : g.st.turn = 1) (y : Side) :
    turns (processAiTurn g).trace y ≤ turns g.trace y + if y = .player then 1 else 0 := by
  have hloop : turns (aiLoop g).trace y = turns g.trace y := turns_aiLoopUpTo 8 g y
  have hturn : (aiLoop g).st.turn = Side.ai.turn := (aiLoopUpTo_turn 8 g).trans turn
  simp only [processAiTurn]
  split
  · rw [← hloop]
    exact turns_phaseEnd hturn y
  · rw [hloop]
    exact Nat.le_add_right _ _

/-- Ending the turn starts at most one turn of each side. -/
theorem turns_fullTurn (turn : g.st.turn = 0) (y : Side) :
    turns (fullTurn g).trace y ≤ turns g.trace y + 1 := by
  have hend := turns_phaseEnd (x := .player) turn y
  rw [fullTurn, settle]
  split
  · rename_i hdue
    have hai := turns_processAiTurn hdue.1 y
    cases y with
    | player =>
      rw [if_neg (by decide)] at hend
      rw [if_pos rfl] at hai
      omega
    | ai =>
      have hother : Side.ai = Side.player.other := rfl
      rw [if_pos hother] at hend
      rw [if_neg (by decide)] at hai
      omega
  · refine hend.trans ?_
    split <;> omega

theorem turns_onPacket (g : Match) (p : Packet) (y : Side) :
    turns (onPacket g p).trace y ≤ turns g.trace y + if p.op = opEndTurn then 1 else 0 := by
  rw [onPacket]
  split
  · exact Nat.le_add_right _ _
  · rename_i hopen
    have hturn : g.st.turn = 0 := by
      by_contra hturn
      exact hopen (Or.inr (Or.inr hturn))
    split
    · split
      · split
        · exact Nat.le_add_right _ _
        · exact Nat.le_add_right _ _
      · exact Nat.le_add_right _ _
    · split
      · exact turns_fullTurn hturn y
      · exact Nat.le_add_right _ _

end Count

/-- The `OP_END_TURN`s among the packets, also those that come when the match is over. -/
def endTurns (ps : List Packet) : ℕ := ps.countP fun p => p.op = opEndTurn

theorem turns_playout (rng : ℕ → ℕ) (ps : List Packet) (y : Side) :
    turns (playout rng ps).trace y ≤ endTurns ps + if y = .player then 1 else 0 := by
  induction ps using List.reverseRecOn with
  | nil =>
    have hlogin : (playout rng []).trace = [.draw Side.player.turn (dealHand rng)] := rfl
    rw [hlogin, turns_draw]
    exact le_refl _
  | append_singleton ps p ih =>
    have hpacket := turns_onPacket (playout rng ps) p y
    have hcount : endTurns (ps ++ [p]) = endTurns ps + if p.op = opEndTurn then 1 else 0 := by
      simp only [endTurns, List.countP_append, List.countP_singleton, decide_eq_true_eq]
    rw [playout_append, hcount]
    omega

section Packets
variable {rng : ℕ → ℕ} {ps : List Packet}

theorem playout_few (h : endTurns ps ≤ 252) (y : Side) : turns (playout rng ps).trace y ≤ 253 := by
  refine (turns_playout rng ps y).trans ?_
  split <;> omega

/-- The hit points of either side after `n` packets `OP_END_TURN`. -/
theorem playout_loses (h : endTurns ps ≤ 252) (x : Side) :
    30 ≤ ((playout rng ps).st.hp x).toInt + 9 * (endTurns ps + if x = .ai then 1 else 0 : ℕ) := by
  have hreach := (playout_reachable rng ps).1
  have hturns := turns_playout rng ps x.other
  have hloses := (hreach.inRange (playout_few h)).loses hreach.paced x
  have hview : ((playout rng ps).view.core.hp x).toInt = ((playout rng ps).st.hp x).toInt := rfl
  have htrace : (playout rng ps).view.trace = (playout rng ps).trace := rfl
  rw [hview, htrace] at hloses
  cases x with
  | player =>
    have hno : ¬ Side.player.other = .player := by decide
    rw [if_neg hno] at hturns
    rw [if_neg (by decide)]
    omega
  | ai =>
    have hyes : Side.ai.other = .player := rfl
    rw [if_pos hyes] at hturns
    rw [if_pos rfl]
    omega

end Packets

/-- However the cards fall, no conversion to a field of the match loses anything and no
counter is negative, as long as the player has sent at most 252 packets `OP_END_TURN`; with
253 of them there is a match in which one wraps. -/
theorem exact_for_turns :
    (∀ rng ps, endTurns ps ≤ 252 →
      AllExact (playout rng ps).trace ∧ NonNeg (playout rng ps).st.toCore) ∧
    ∃ rng ps, endTurns ps = 253 ∧ ¬ AllExact (playout rng ps).trace := by
  constructor
  · intro rng ps h
    have hreach := (playout_reachable rng ps).1
    obtain ⟨hnonneg, hexact⟩ := hreach.exact (hreach.inRange (playout_few h)).room
    exact ⟨hexact, hnonneg⟩
  · refine ⟨venomRng, venomPackets, by decide +kernel, fun hexact => ?_⟩
    obtain ⟨p, hp, hside, hrc, hcard, hbefore, hafter⟩ := venom_overflows
    have hforward := hexact.2 p hp hrc venom hcard
    have hle : (p.before.poison p.side.other).toNat ≤ (p.after.poison p.side.other).toNat := hforward
    rw [hside] at hle
    have hbefore' : p.before.poison Side.player.other = 253 := hbefore
    have hafter' : p.after.poison Side.player.other = 0 := hafter
    rw [hbefore', hafter'] at hle
    exact absurd hle (by decide)

/-- The player plays every card in every turn. -/
def rush : List Packet :=
  (List.replicate 3 [⟨opPlayCard, [0]⟩, ⟨opPlayCard, [1]⟩, ⟨opPlayCard, [2]⟩, ⟨opEndTurn, []⟩]).flatten ++
    [⟨opPlayCard, [0]⟩, ⟨opPlayCard, [1]⟩, ⟨opPlayCard, [2]⟩, ⟨opPlayCard, [3]⟩]

/-- No match is over before the player has sent three packets `OP_END_TURN`, and none is lost
or drawn before four; with Slashes alone it takes no longer. -/
theorem nobody_falls_early :
    (∀ rng ps, (playout rng ps).st.gameOver ≠ 0 → 3 ≤ endTurns ps ∧
      ((playout rng ps).st.winner ≠ 1 → 4 ≤ endTurns ps)) ∧
    (∃ rng ps, (playout rng ps).st.winner = 1 ∧ endTurns ps = 3) ∧
    ∃ rng ps, (playout rng ps).st.winner = 2 ∧ endTurns ps = 4 := by
  refine ⟨fun rng ps hover => ?_, ⟨fun _ => 0, rush, by decide +kernel⟩,
    ⟨fun _ => 0, List.replicate 4 ⟨opEndTurn, []⟩, by decide +kernel⟩⟩
  by_cases hfew : endTurns ps ≤ 252
  · have hset := (playout_reachable rng ps).1.settled
    have hflag : (playout rng ps).st.gameOver = 1 := hset.flag.resolve_left hover
    have hend : (playout rng ps).st.pHp.toInt ≤ 0 ∨ (playout rng ps).st.aiHp.toInt ≤ 0 :=
      hset.ended.mp hflag
    have hwinner : (playout rng ps).st.winner = (playout rng ps).st.verdict := hset.winner hflag
    have hplayer : 30 ≤ (playout rng ps).st.pHp.toInt + 9 * (endTurns ps + 0 : ℕ) :=
      playout_loses hfew .player
    have hai : 30 ≤ (playout rng ps).st.aiHp.toInt + 9 * (endTurns ps + 1 : ℕ) :=
      playout_loses hfew .ai
    constructor
    · omega
    · intro hlost
      have hle : ¬ (playout rng ps).st.aiHp.toInt < (playout rng ps).st.pHp.toInt := by
        intro hlt
        exact hlost (hwinner.trans (if_pos hlt))
      omega
  · omega

end MiniTcg.Game
