import MiniTcg.Game.Exact

/-!
# The ledger of a match

The totals of what each side has played account for what each side has left:
healing and shields on one side, attacks, spent buffs and ticked poison on the
other. The account is proved for the unbounded rules and carried over to the
server's state while the totals stay inside the fields.
-/
namespace MiniTcg.Game

/-- What each side has played of each kind. -/
abbrev Totals := Side → CardType → ℤ

def Totals.bump (tot : Totals) (x : Side) (k : CardType) (v : ℤ) : Totals :=
  fun y j => tot y j + if y = x ∧ j = k then v else 0

/-- One side's account against the other's, with the bounds it rests on. -/
structure Account (own enemy : Sheet) (mine theirs : CardType → ℤ) : Prop where
  sum : own.hp + own.shield = 30 + mine .heal + mine .shield -
    (theirs .atk + theirs .buff - enemy.buff) - 2 * (theirs .poison - own.poison)
  hp : 0 < own.hp ∧ own.hp ≤ 30 + mine .heal
  shield : 0 ≤ own.shield ∧ own.shield ≤ mine .shield
  buff : 0 ≤ own.buff ∧ own.buff ≤ mine .buff
  poison : 0 ≤ own.poison ∧ own.poison ≤ theirs .poison
  played : ∀ k, 0 ≤ mine k

def Balanced (T : Table) (tot : Totals) : Prop :=
  ∀ x, Account (T x) (T x.other) (tot x) (tot x.other)

section Abstract
variable {T : Table} {tot : Totals} {x : Side} {v : ℤ}

theorem Balanced.of_sides (hx : Account (T x) (T x.other) (tot x) (tot x.other))
    (ho : Account (T x.other) (T x) (tot x.other) (tot x)) : Balanced T tot := by
  intro y
  rcases Side.eq_or_other y x with rfl | rfl
  · exact hx
  · rw [Side.other_other]
    exact ho

theorem Balanced.sides (h : Balanced T tot) (x : Side) :
    Account (T x) (T x.other) (tot x) (tot x.other) ∧
      Account (T x.other) (T x) (tot x.other) (tot x) := by
  refine ⟨h x, ?_⟩
  have ho := h x.other
  rwa [Side.other_other] at ho

theorem Totals.bump_other (k : CardType) : tot.bump x k v x.other = tot x.other := by
  funext j
  simp [Totals.bump, Side.other_ne x]

theorem Totals.bump_self (k j : CardType) :
    tot.bump x k v x j = tot x j + if j = k then v else 0 := by
  simp [Totals.bump]

theorem Totals.bump_nonneg (h : ∀ k, 0 ≤ tot x k) (hv : 0 < v) (k j : CardType) :
    0 ≤ tot.bump x k v x j := by
  have hj := h j
  rw [Totals.bump_self]
  split <;> omega

/-- A hit that is survived costs exactly its damage. -/
theorem Sheet.hit_survived {s : Sheet} {dmg : ℤ} (hd : 0 < dmg) (hs : 0 ≤ s.shield)
    (hlive : 0 < (s.hit dmg).hp) :
    (s.hit dmg).hp + (s.hit dmg).shield = s.hp + s.shield - dmg ∧
      (s.hit dmg).hp ≤ s.hp ∧ 0 ≤ (s.hit dmg).shield ∧ (s.hit dmg).shield ≤ s.shield := by
  have hused : s.used dmg = min dmg s.shield := by
    unfold Sheet.used
    split <;> omega
  unfold Sheet.hit at hlive ⊢
  rw [if_neg (by omega)] at hlive ⊢
  simp only [hused] at hlive ⊢
  split at hlive
  · rw [if_pos ‹_›]
    omega
  · rw [if_neg ‹_›]
    omega

theorem Balanced.play_atk (h : Balanced T tot) (hv : 0 < v)
    (hlive : ∀ y, 0 < (T.play x v .atk y).hp) :
    Balanced (T.play x v .atk) (tot.bump x .atk v) := by
  obtain ⟨hx, ho⟩ := h.sides x
  have hself : T.play x v .atk x = { T x with buff := 0 } := by
    simp [Table.play, Table.set, (Side.other_ne x).symm]
  have hother : T.play x v .atk x.other = (T x.other).hit (v + (T x).buff) := by
    simp [Table.play, Table.set]
  have hl := hlive x.other
  rw [hother] at hl
  have hbuff := hx.buff
  have hshield := ho.shield
  obtain ⟨hsum, hhp, hsh, hsh'⟩ := Sheet.hit_survived (by omega) hshield.1 hl
  obtain ⟨hb, hp⟩ := (T x.other).hit_rest (v + (T x).buff)
  have hx1 := hx.sum
  have ho1 := ho.sum
  have hhp1 := ho.hp
  refine Balanced.of_sides (x := x) ?_ ?_
  · rw [hself, hother, Totals.bump_other]
    refine ⟨?_, ?_, ?_, ?_, hx.poison, Totals.bump_nonneg hx.played hv _⟩
    · simp only [hb, Totals.bump_self, reduceCtorEq, if_false]
      omega
    · simpa [Totals.bump_self] using hx.hp
    · simpa [Totals.bump_self] using hx.shield
    · simp only [Totals.bump_self, reduceCtorEq, if_false]
      omega
  · rw [hself, hother, Totals.bump_other]
    refine ⟨?_, ⟨hl, by omega⟩, ⟨hsh, by omega⟩, ?_, ?_, ho.played⟩
    · simp only [hp, Totals.bump_self, reduceCtorEq, if_false, if_true]
      omega
    · rw [hb]
      exact ho.buff
    · rw [hp]
      simpa [Totals.bump_self] using ho.poison

/-- A card that is no attack adds its value to one column of one side. -/
theorem Table.play_add {k : CardType} (hk : k ≠ .atk) (T : Table) (x : Side) (v : ℤ) :
    T.play x v k x =
        { T x with
          hp := (T x).hp + if .heal = k then v else 0
          shield := (T x).shield + if .shield = k then v else 0
          buff := (T x).buff + if .buff = k then v else 0 } ∧
      T.play x v k x.other =
        { T x.other with poison := (T x.other).poison + if .poison = k then v else 0 } := by
  cases k with
  | atk => exact absurd rfl hk
  | heal => simp [Table.play, Table.set, Side.other_ne x]
  | shield => simp [Table.play, Table.set, Side.other_ne x]
  | buff => simp [Table.play, Table.set, Side.other_ne x]
  | poison => simp [Table.play, Table.set, (Side.other_ne x).symm]

/-- The totals add the value to the same column. -/
theorem Balanced.play_add {k : CardType} (h : Balanced T tot) (hv : 0 < v) (hk : k ≠ .atk) :
    Balanced (T.play x v k) (tot.bump x k v) := by
  obtain ⟨hx, ho⟩ := h.sides x
  obtain ⟨hself, hother⟩ := Table.play_add hk T x v
  obtain ⟨hsum, hhp, hsh, hbuff, hpoison, hplayed⟩ := hx
  obtain ⟨osum, ohp, osh, obuff, opoison, oplayed⟩ := ho
  refine Balanced.of_sides (x := x) ?_ ?_
  · rw [hself, hother, Totals.bump_other]
    refine ⟨?_, ?_, ?_, ?_, hpoison, Totals.bump_nonneg hplayed hv _⟩ <;>
      simp only [Totals.bump_self] <;> omega
  · rw [hself, hother, Totals.bump_other]
    refine ⟨?_, ohp, osh, obuff, ?_, oplayed⟩ <;>
      simp only [Totals.bump_self, if_neg hk.symm] <;> omega

/-- A play that both sides survive keeps the account. -/
theorem Balanced.play (h : Balanced T tot) (hv : 0 < v) (k : CardType)
    (hlive : ∀ y, 0 < (T.play x v k y).hp) : Balanced (T.play x v k) (tot.bump x k v) := by
  by_cases hk : k = .atk
  · subst hk
    exact h.play_atk hv hlive
  · exact h.play_add hv hk

/-- A tick that both sides survive moves two hit points for each poison turn. -/
theorem Balanced.tick (h : Balanced T tot) (hlive : ∀ y, 0 < (T.tick y).hp) :
    Balanced T.tick tot := by
  intro x
  have hl := hlive x
  obtain ⟨hsum, hhp, hsh, hbuff, hpoison, hplayed⟩ := h x
  have hother : (T.tick x.other).buff = (T x.other).buff := by
    unfold Table.tick Sheet.tick
    split <;> rfl
  unfold Table.tick Sheet.tick at hl ⊢
  change (T.tick x.other).buff = _ at hother
  unfold Table.tick Sheet.tick at hother
  split at hl
  · rw [if_pos ‹_›]
    refine ⟨?_, ⟨hl, ?_⟩, hsh, hbuff, ?_, hplayed⟩
    · rw [hother]
      simp only at hl ⊢
      omega
    · simp only at hl ⊢
      omega
    · simp only
      omega
  · rw [if_neg ‹_›]
    refine ⟨?_, hhp, hsh, hbuff, hpoison, hplayed⟩
    rw [hother]
    exact hsum

end Abstract

/-! ### The totals of a history -/

/-- What a play adds to the total of side `x` and kind `k`. -/
def Play.worth (p : Play) (x : Side) (k : CardType) : ℤ :=
  if p.rc = 0 ∧ p.side = x then
    (p.card.map fun card => if card.kind = k then card.value.toInt else 0).getD 0
  else 0

/-- The sums of the values of the cards each side has successfully played. -/
def totals : List Event → Totals
  | [] => fun _ _ => 0
  | .play p :: t => fun x k => totals t x k + p.worth x k
  | .draw _ _ :: t => totals t
  | .tick _ :: t => totals t

/-- The totals stay inside the fields. -/
def Capped (t : List Event) : Prop :=
  ∀ x, 30 + totals t x .heal ≤ 32767 ∧ totals t x .shield ≤ 32767 ∧
    totals t x .atk + totals t x .buff ≤ 32767 ∧ totals t x .poison ≤ 255

theorem worth_nonneg (p : Play) (x : Side) (k : CardType) : 0 ≤ p.worth x k := by
  unfold Play.worth
  split
  · cases hc : p.card with
    | none => exact le_refl _
    | some card =>
      obtain ⟨_, _, _, hv, _, _⟩ := gCards_sane card (getCardDef_mem hc).1
      simp only [Option.map_some, Option.getD_some]
      split <;> omega
  · exact le_refl _

theorem totals_mono (e : Event) (t : List Event) (x : Side) (k : CardType) :
    totals t x k ≤ totals (e :: t) x k := by
  cases e with
  | draw | tick => exact le_refl _
  | play p =>
    have hw := worth_nonneg p x k
    change totals t x k ≤ totals t x k + p.worth x k
    omega

theorem Capped.tail {e : Event} {t : List Event} (h : Capped (e :: t)) : Capped t := by
  intro x
  obtain ⟨h1, h2, h3, h4⟩ := h x
  have m1 := totals_mono e t x .heal
  have m2 := totals_mono e t x .shield
  have m3 := totals_mono e t x .atk
  have m4 := totals_mono e t x .buff
  have m5 := totals_mono e t x .poison
  exact ⟨by omega, by omega, by omega, by omega⟩

theorem totals_play {p : Play} {card : CardDef} (hrc : p.rc = 0) (hc : p.card = some card)
    (t : List Event) :
    totals (.play p :: t) = (totals t).bump p.side card.kind card.value.toInt := by
  funext y j
  change totals t y j + p.worth y j = totals t y j + _
  unfold Play.worth
  by_cases hy : p.side = y
  · by_cases hj : card.kind = j
    · simp [hrc, hc, hy, hj]
    · simp [hrc, hc, hy, hj, Ne.symm hj]
  · simp [hy, Ne.symm hy]

theorem totals_refused {p : Play} (hrc : p.rc ≠ 0) (t : List Event) :
    totals (.play p :: t) = totals t := by
  funext y j
  change totals t y j + p.worth y j = totals t y j
  simp [Play.worth, hrc]

/-! ### The ledger of a match -/

theorem check_live {c : Core} (live : c.gameOver = 0) (h : c.check.gameOver = 0) (x : Side) :
    0 < (c.hp x).toInt := by
  by_contra hx
  have hd : c.pHp.toInt ≤ 0 ∨ c.aiHp.toInt ≤ 0 := by
    cases x with
    | player => exact Or.inl (not_lt.mp hx)
    | ai => exact Or.inr (not_lt.mp hx)
  have hc : c.check = { c with gameOver := 1, winner := c.verdict } := by
    simp [Core.check, live, hd]
  rw [hc] at h
  exact one_ne_zero8 h

/-- Totals inside the fields leave room for the card that was added last. -/
theorem Balanced.room {c : Core} {x : Side} {card : CardDef} {t : List Event} {p : Play}
    (hb : Balanced c.sheet (totals t)) (hm : card ∈ gCards) (hp : p.rc = 0 ∧ p.side = x)
    (hc : p.card = some card) (hcap : Capped (.play p :: t)) :
    Room c x card.value.toInt card.kind := by
  obtain ⟨_, _, _, hv, _, _⟩ := gCards_sane card hm
  obtain ⟨hx, ho⟩ := hb.sides x
  have hcx := hcap x
  rw [totals_play hp.1 hc, hp.2] at hcx
  simp only [Totals.bump_self] at hcx
  have h1 := hx.hp
  have h2 := hx.shield
  have h3 := hx.buff
  have h4 := ho.poison
  have h5 := hx.played .atk
  have h6 := ho.hp
  simp only [Core.sheet_hp, Core.sheet_shield, Core.sheet_buff, Core.sheet_poison] at h1 h2 h3 h4 h6
  generalize card.kind = k at hcx ⊢
  cases k <;> simp only [reduceCtorEq, if_true, if_false, Room] at hcx ⊢ <;> omega

theorem balanced_step {v w : View} (hstep : Step v w)
    (h : Capped v.trace → v.core.gameOver = 0 → Balanced v.core.sheet (totals v.trace))
    (hcap : Capped w.trace) (hlive : w.core.gameOver = 0) :
    Balanced w.core.sheet (totals w.trace) := by
  have hcap' : Capped v.trace := by
    cases hstep <;> exact hcap.tail
  cases hstep with
  | @play x idx card live main turn ok =>
    have hb := h hcap' live
    have hm := playable_mem ok
    have hk : Play.card ⟨x, idx, v.core, v.hand, 0, v.core.played x card, v.hand.after idx x⟩ =
        some card := (playable_iff.mp ok).2.1
    obtain ⟨_, _, _, hv, _, _⟩ := gCards_sane card hm
    have hroom := hb.room hm ⟨rfl, rfl⟩ hk hcap
    have hsheet := played_sheet hm hroom
    have hlive' : ∀ y, 0 < ((v.core.played x card).hp y).toInt := by
      intro y
      have hover : ((v.core.pay card).applyCard x card.value card.kind).gameOver = 0 :=
        ((v.core.pay card).applyCard_fields x card.value card.kind).2.2.1.trans live
      rw [Core.played, Core.check_hp]
      exact check_live hover hlive y
    have htot := totals_play rfl hk v.trace
    change Balanced (v.core.played x card).sheet (totals (.play _ :: v.trace))
    rw [htot, hsheet]
    refine hb.play (by omega) _ fun y => ?_
    rw [← hsheet]
    exact hlive' y
  | refuse live main turn no =>
    rw [totals_refused (refusal_ne_zero _ _)]
    exact h hcap' live
  | tick live main turn =>
    have hb := h hcap' live
    have hsheet : v.core.ending.tickAll.sheet = v.core.sheet.tick :=
      tickAll_sheet fun x => le_of_lt (hb x).hp.1
    have hover : v.core.ending.tickAll.gameOver = 0 :=
      v.core.ending.tickAll_fields.2.2.1.trans live
    change Balanced v.core.ending.tickAll.check.sheet (totals v.trace)
    rw [Core.sheet_check, hsheet]
    refine hb.tick fun y => ?_
    rw [← hsheet]
    exact check_live hover hlive y
  | @draw x hand live ended turn dealt =>
    have hsheet : (v.core.enter x.other.turn).sheet = v.core.sheet := by
      funext y
      cases y <;> rfl
    change Balanced (v.core.enter x.other.turn).sheet (totals v.trace)
    rw [hsheet]
    exact h hcap' live

/-- The account of every match that is still open. -/
theorem Reachable.balanced {v : View} (h : Reachable v) (hcap : Capped v.trace)
    (hlive : v.core.gameOver = 0) : Balanced v.core.sheet (totals v.trace) := by
  refine h.invariant
    (P := fun v => Capped v.trace → v.core.gameOver = 0 → Balanced v.core.sheet (totals v.trace))
    ?_ (fun _ _ => balanced_step) hcap hlive
  intro hand _ _ _ x
  have hsheet : ∀ y, (View.start hand).core.sheet y = ⟨30, 0, 0, 0⟩ := by
    intro y
    cases y <;> rfl
  have htot : ∀ y k, totals (View.start hand).trace y k = 0 := fun y k => rfl
  rw [hsheet, hsheet]
  refine ⟨?_, ?_, ?_, ?_, ?_, ?_⟩ <;> simp [htot]

end MiniTcg.Game
