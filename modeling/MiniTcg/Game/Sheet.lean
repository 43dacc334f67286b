import MiniTcg.Game.Step

/-!
# The rules in unbounded integers

A `Sheet` is one side's hit points, shield, buff and poison as integers, and
`Table` is a pair of them. `Table.play` and `Table.tick` are the rules of the game
with no field width. The server's state follows them as long as each card played
has room in the field it is written to.
-/
namespace MiniTcg.Game

@[ext] structure Sheet where
  hp : ℤ
  shield : ℤ
  buff : ℤ
  poison : ℤ

abbrev Table := Side → Sheet

/-- The part of a hit the shield takes. -/
def Sheet.used (s : Sheet) (dmg : ℤ) : ℤ := if 0 < s.shield then min dmg s.shield else 0

/-- Damage: the shield first, the rest from the hit points, which stop at 0. -/
def Sheet.hit (s : Sheet) (dmg : ℤ) : Sheet :=
  if dmg ≤ 0 then s
  else
    { s with
      shield := s.shield - s.used dmg
      hp := if 0 < dmg - s.used dmg then max 0 (s.hp - (dmg - s.used dmg)) else s.hp }

def Sheet.tick (s : Sheet) : Sheet :=
  if 0 < s.poison then { s with poison := s.poison - 1, hp := max 0 (s.hp - 2) } else s

def Table.set (T : Table) (x : Side) (s : Sheet) : Table := fun y => if y = x then s else T y

/-- A card of value `v` played by side `x`. -/
def Table.play (T : Table) (x : Side) (v : ℤ) : CardType → Table
  | .atk => (T.set x { T x with buff := 0 }).set x.other ((T x.other).hit (v + (T x).buff))
  | .heal => T.set x { T x with hp := (T x).hp + v }
  | .shield => T.set x { T x with shield := (T x).shield + v }
  | .buff => T.set x { T x with buff := (T x).buff + v }
  | .poison => T.set x.other { T x.other with poison := (T x.other).poison + v }

def Table.tick (T : Table) : Table := fun x => (T x).tick

/-- The sheets of a state. -/
def Core.sheet (c : Core) : Table := fun x =>
  ⟨(c.hp x).toInt, (c.shield x).toInt, (c.buff x).toInt, (c.poison x).toNat⟩

section Fields
variable (c : Core) (x : Side)

@[simp] theorem Core.sheet_hp : (c.sheet x).hp = (c.hp x).toInt := rfl
@[simp] theorem Core.sheet_shield : (c.sheet x).shield = (c.shield x).toInt := rfl
@[simp] theorem Core.sheet_buff : (c.sheet x).buff = (c.buff x).toInt := rfl
@[simp] theorem Core.sheet_poison : (c.sheet x).poison = (c.poison x).toNat := rfl

end Fields

/-- The field a card of value `v` is written to can hold the result. -/
def Room (c : Core) (x : Side) (v : ℤ) : CardType → Prop
  | .atk => v + (c.buff x).toInt - max 0 (c.shield x.other).toInt - (c.hp x.other).toInt ≤ 32768
  | .heal => (c.hp x).toInt + v ≤ 32767
  | .shield => (c.shield x).toInt + v ≤ 32767
  | .buff => (c.buff x).toInt + v ≤ 32767
  | .poison => (c.poison x.other).toNat + v ≤ 255

instance (c : Core) (x : Side) (v : ℤ) : (t : CardType) → Decidable (Room c x v t)
  | .atk => inferInstanceAs (Decidable (_ ≤ _))
  | .heal => inferInstanceAs (Decidable (_ ≤ _))
  | .shield => inferInstanceAs (Decidable (_ ≤ _))
  | .buff => inferInstanceAs (Decidable (_ ≤ _))
  | .poison => inferInstanceAs (Decidable (_ ≤ _))

/-! ### The state follows the sheets -/

section Follow
variable {c : Core} {x : Side}

@[simp] theorem Core.sheet_check (c : Core) : c.check.sheet = c.sheet := by
  funext y
  simp [Core.sheet]

@[simp] theorem Core.sheet_pay (c : Core) (card : CardDef) : (c.pay card).sheet = c.sheet := by
  funext y
  cases y <;> rfl

theorem room_pay (c : Core) (card : CardDef) (x : Side) (v : ℤ) (t : CardType) :
    Room (c.pay card) x v t ↔ Room c x v t := by
  cases x <;> cases t <;> exact Iff.rfl

theorem absorb_eq {shield : Int16} {dmg : ℤ} {s : Sheet} (hsh : s.shield = shield.toInt)
    (hd : 0 < dmg) :
    (absorb shield dmg).1.toInt = s.shield - s.used dmg ∧
      (absorb shield dmg).2 = dmg - s.used dmg := by
  have hb := Narrow.i16_bounds shield
  unfold absorb Sheet.used
  rw [hsh]
  by_cases hs : 0 < shield.toInt
  · simp only [if_pos hs]
    have hmin : (if dmg < shield.toInt then dmg else shield.toInt) = min dmg shield.toInt := by
      split <;> omega
    rw [hmin]
    refine ⟨Narrow.toInt_i16 ?_, rfl⟩
    have h1 := min_le_right dmg shield.toInt
    have h2 : 0 < min dmg shield.toInt := lt_min hd hs
    constructor
    · omega
    · have := hb.2
      omega
  · simp only [if_neg hs]
    constructor <;> omega

/-- `apply_damage` is a hit, unless the hit points would fall below `-32768`. -/
theorem applyDamage_eq {hp shield : Int16} {dmg : ℤ} {s : Sheet} (hhp : s.hp = hp.toInt)
    (hsh : s.shield = shield.toInt) (room : dmg - max 0 shield.toInt - hp.toInt ≤ 32768) :
    (applyDamage hp shield dmg).1.toInt = (s.hit dmg).hp ∧
      (applyDamage hp shield dmg).2.toInt = (s.hit dmg).shield := by
  unfold applyDamage Sheet.hit
  by_cases hd : dmg ≤ 0
  · simp only [if_pos hd]
    exact ⟨hhp.symm, hsh.symm⟩
  · obtain ⟨hleft, hrest⟩ := absorb_eq hsh (by omega : 0 < dmg)
    simp only [if_neg hd, hrest]
    by_cases hr : 0 < dmg - s.used dmg
    · have hfit : Narrow.FitsI16 (hp.toInt - (dmg - s.used dmg)) := by
        have hb := Narrow.i16_bounds hp
        have hu : max 0 shield.toInt ≤ s.used dmg := by
          unfold Sheet.used at hr ⊢
          rw [hsh] at hr ⊢
          split at hr
          · rw [if_pos ‹_›]
            omega
          · rw [if_neg ‹_›]
            omega
        constructor
        · omega
        · have := hb.2
          omega
      have hnew := Narrow.toInt_i16 hfit
      simp only [if_pos hr]
      refine ⟨?_, hleft⟩
      rw [hnew, hhp]
      split
      · rw [max_eq_left (by omega)]
        rfl
      · rw [hnew, max_eq_right (by omega)]
    · simp only [if_neg hr]
      exact ⟨hhp.symm, hleft⟩

theorem u8_small {v : ℤ} (h2 : 2 ≤ v) (h8 : v ≤ 8) : ((Narrow.u8 v).toNat : ℤ) = v :=
  Narrow.toNat_u8 ⟨by omega, by omega⟩

theorem Side.eq_or_other (y x : Side) : y = x ∨ y = x.other := by
  cases x <;> cases y <;> simp [Side.other]

theorem Sheet.hit_rest (s : Sheet) (dmg : ℤ) :
    (s.hit dmg).buff = s.buff ∧ (s.hit dmg).poison = s.poison := by
  unfold Sheet.hit
  split <;> exact ⟨rfl, rfl⟩

theorem sheet_atk {v : Int16} (room : Room c x v.toInt .atk) :
    (c.applyCard x v .atk).sheet = c.sheet.play x v.toInt .atk := by
  obtain ⟨hhp, hsh⟩ := applyDamage_eq (s := c.sheet x.other) rfl rfl room
  obtain ⟨hbuff, hpoison⟩ := (c.sheet x.other).hit_rest (v.toInt + (c.buff x).toInt)
  have hne := Side.other_ne x
  funext y
  rcases Side.eq_or_other y x with rfl | rfl
  · simp [Core.sheet, Core.applyCard, Table.play, Table.set, Core.hp_setHp, Core.shield_setShield,
      Core.buff_setBuff, hne.symm]
  · ext
    · simpa [Core.sheet, Core.applyCard, Table.play, Table.set, Core.hp_setHp, Core.attack] using hhp
    · simpa [Core.sheet, Core.applyCard, Table.play, Table.set, Core.shield_setShield, Core.attack]
        using hsh
    · simpa [Core.sheet, Core.applyCard, Table.play, Table.set, Core.buff_setBuff, hne]
        using hbuff.symm
    · simpa [Core.sheet, Core.applyCard, Table.play, Table.set] using hpoison.symm

theorem sheet_heal {v : Int16} (hv : 2 ≤ v.toInt) (room : Room c x v.toInt .heal) :
    (c.applyCard x v .heal).sheet = c.sheet.play x v.toInt .heal := by
  have hb := (Narrow.i16_bounds (c.hp x)).1
  have hx : (Narrow.i16 ((c.hp x).toInt + v.toInt)).toInt = (c.hp x).toInt + v.toInt :=
    Narrow.toInt_i16 ⟨by omega, room⟩
  funext y
  by_cases hy : y = x
  · subst hy
    simp [Core.sheet, Core.applyCard, Table.play, Table.set, Core.hp_setHp, hx]
  · simp [Core.sheet, Core.applyCard, Table.play, Table.set, Core.hp_setHp, hy]

theorem sheet_shield {v : Int16} (hv : 2 ≤ v.toInt) (room : Room c x v.toInt .shield) :
    (c.applyCard x v .shield).sheet = c.sheet.play x v.toInt .shield := by
  have hb := (Narrow.i16_bounds (c.shield x)).1
  have hx : (Narrow.i16 ((c.shield x).toInt + v.toInt)).toInt = (c.shield x).toInt + v.toInt :=
    Narrow.toInt_i16 ⟨by omega, room⟩
  funext y
  by_cases hy : y = x
  · subst hy
    simp [Core.sheet, Core.applyCard, Table.play, Table.set, Core.shield_setShield, hx]
  · simp [Core.sheet, Core.applyCard, Table.play, Table.set, Core.shield_setShield, hy]

theorem sheet_buff {v : Int16} (hv : 2 ≤ v.toInt) (room : Room c x v.toInt .buff) :
    (c.applyCard x v .buff).sheet = c.sheet.play x v.toInt .buff := by
  have hb := (Narrow.i16_bounds (c.buff x)).1
  have hx : (Narrow.i16 ((c.buff x).toInt + v.toInt)).toInt = (c.buff x).toInt + v.toInt :=
    Narrow.toInt_i16 ⟨by omega, room⟩
  funext y
  by_cases hy : y = x
  · subst hy
    simp [Core.sheet, Core.applyCard, Table.play, Table.set, Core.buff_setBuff, hx]
  · simp [Core.sheet, Core.applyCard, Table.play, Table.set, Core.buff_setBuff, hy]

theorem sheet_poison {v : Int16} (hv : 2 ≤ v.toInt) (hv' : v.toInt ≤ 8)
    (room : Room c x v.toInt .poison) :
    (c.applyCard x v .poison).sheet = c.sheet.play x v.toInt .poison := by
  have hx : ((Narrow.u8 ((c.poison x.other).toNat + (Narrow.u8 v.toInt).toNat)).toNat : ℤ) =
      (c.poison x.other).toNat + v.toInt := by
    rw [u8_small hv hv']
    exact Narrow.toNat_u8 ⟨by omega, room⟩
  funext y
  by_cases hy : y = x.other
  · subst hy
    simp [Core.sheet, Core.applyCard, Table.play, Table.set, Core.poison_setPoison, hx]
  · simp [Core.sheet, Core.applyCard, Table.play, Table.set, Core.poison_setPoison, hy]

/-- A play with room is the play of the unbounded rules. -/
theorem played_sheet {card : CardDef} (hm : card ∈ gCards)
    (room : Room c x card.value.toInt card.kind) :
    (c.played x card).sheet = c.sheet.play x card.value.toInt card.kind := by
  obtain ⟨_, _, _, hv, hv', _⟩ := gCards_sane card hm
  rw [← room_pay c card] at room
  rw [Core.played, Core.sheet_check, ← c.sheet_pay card]
  generalize card.kind = t at room ⊢
  cases t with
  | atk => exact sheet_atk room
  | heal => exact sheet_heal hv room
  | shield => exact sheet_shield hv room
  | buff => exact sheet_buff hv room
  | poison => exact sheet_poison hv hv' room

/-- A poison tick of a side with hit points to lose. -/
theorem tick_sheet (hpos : 0 < (c.poison x).toNat) (hhp : 0 ≤ (c.hp x).toInt) (y : Side) :
    (c.tick x).sheet y = if y = x then (c.sheet y).tick else c.sheet y := by
  have hb := Narrow.u8_bounds (c.poison x)
  have hb' := (Narrow.i16_bounds (c.hp x)).2
  have hpoison := Narrow.toNat_u8 (x := (c.poison x).toNat - 1) ⟨by omega, by omega⟩
  have hnew := Narrow.toInt_i16 (x := (c.hp x).toInt - 2) ⟨by omega, by omega⟩
  have hpos' : (0 : ℤ) < (c.poison x).toNat := by omega
  unfold Core.tick
  by_cases hy : y = x
  · subst hy
    simp only [Core.hp_setHp, Core.hp_setPoison, if_true, hnew]
    split
    · simp [Core.sheet, Sheet.tick, Core.hp_setHp, Core.poison_setPoison, hpos, hpoison]
      omega
    · simp [Core.sheet, Sheet.tick, Core.hp_setHp, Core.poison_setPoison, hpos, hpoison, hnew]
      omega
  · simp only [if_neg hy]
    split
    · simp [Core.sheet, Core.hp_setHp, Core.poison_setPoison, hy]
    · simp [Core.sheet, Core.hp_setHp, Core.poison_setPoison, hy]

theorem tickIf_sheet (hhp : 0 ≤ (c.hp x).toInt) (y : Side) :
    (c.tickIf x).sheet y = if y = x then (c.sheet y).tick else c.sheet y := by
  unfold Core.tickIf
  by_cases hpos : 0 < c.poison x
  · rw [if_pos hpos]
    rw [UInt8.lt_iff_toNat_lt] at hpos
    exact tick_sheet hpos hhp y
  · rw [if_neg hpos]
    rw [UInt8.lt_iff_toNat_lt] at hpos
    split
    · rename_i hy
      subst hy
      have hzero : ¬ 0 < (c.sheet y).poison := by
        change ¬ (0 : ℤ) < (c.poison y).toNat
        have h0 : (0 : UInt8).toNat = 0 := rfl
        omega
      rw [Sheet.tick, if_neg hzero]
    · rfl

/-- The poison ticks of a turn's end are those of the unbounded rules. -/
theorem tickAll_sheet (hhp : ∀ x, 0 ≤ (c.hp x).toInt) : c.tickAll.sheet = c.sheet.tick := by
  have hai : 0 ≤ ((c.tickIf .player).hp .ai).toInt := by
    have h := congrArg Sheet.hp (tickIf_sheet (hhp .player) .ai)
    rw [if_neg (by decide)] at h
    change ((c.tickIf .player).hp .ai).toInt = (c.hp .ai).toInt at h
    rw [h]
    exact hhp .ai
  funext y
  rw [Core.tickAll, tickIf_sheet hai, tickIf_sheet (hhp .player)]
  cases y <;> rfl

end Follow

end MiniTcg.Game
