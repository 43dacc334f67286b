import MiniTcg.Game.Invariant
import MiniTcg.Game.Sheet

/-!
# The narrowing conversions of a match

`Event.casts` lists, for every play and every poison tick of a history, the
unbounded values that `handle_play_card`, `apply_damage` and `tick_poison` store
into `int16_t` and `uint8_t` fields. All of them are stored exactly as long as
every card played had room; then no counter moves the wrong way and none is
negative.
-/
namespace MiniTcg.Game

/-- A conversion to a narrow type, with the value before it. -/
inductive Cast
  | i16 (v : ℤ)
  | u8 (v : ℤ)

def Cast.Exact : Cast → Prop
  | .i16 v => (Narrow.i16 v).toInt = v
  | .u8 v => ((Narrow.u8 v).toNat : ℤ) = v

/-- The conversions of `apply_damage`. -/
def damageCasts (hp shield : Int16) (dmg : ℤ) : List Cast :=
  if dmg ≤ 0 then []
  else
    let used := if dmg < shield.toInt then dmg else shield.toInt
    let left := (absorb shield dmg).2
    (if 0 < shield.toInt then [.i16 (shield.toInt - used)] else []) ++
      (if 0 < left then [.i16 (hp.toInt - left)] else [])

/-- The conversions of `handle_play_card` on a playable card. -/
def playCasts (c : Core) (x : Side) (card : CardDef) : List Cast :=
  .u8 ((c.mana.toNat : ℤ) - card.cost.toNat) ::
    match card.kind with
    | .atk => damageCasts (c.hp x.other) (c.shield x.other) (c.attack x card.value.toInt)
    | .heal => [.i16 ((c.hp x).toInt + card.value.toInt)]
    | .shield => [.i16 ((c.shield x).toInt + card.value.toInt)]
    | .buff => [.i16 ((c.buff x).toInt + card.value.toInt)]
    | .poison => [.u8 card.value.toInt,
        .u8 ((c.poison x.other).toNat + (Narrow.u8 card.value.toInt).toNat)]

/-- The conversions of one side's block of `tick_poison`. -/
def tickCasts (c : Core) (x : Side) : List Cast :=
  if 0 < c.poison x then [.u8 ((c.poison x).toNat - 1), .i16 ((c.hp x).toInt - 2)] else []

def Event.casts : Event → List Cast
  | .draw _ _ => []
  | .play p => if p.rc = 0 then (p.card.map (playCasts p.before p.side)).getD [] else []
  | .tick c => tickCasts c .player ++ tickCasts (c.tickIf .player) .ai

/-- A card never moves its counter the wrong way. -/
def Play.Forward (p : Play) : CardType → Prop
  | .atk => (p.after.hp p.side.other).toInt ≤ (p.before.hp p.side.other).toInt
  | .heal => (p.before.hp p.side).toInt ≤ (p.after.hp p.side).toInt
  | .shield => (p.before.shield p.side).toInt ≤ (p.after.shield p.side).toInt
  | .buff => (p.before.buff p.side).toInt ≤ (p.after.buff p.side).toInt
  | .poison => (p.before.poison p.side.other).toNat ≤ (p.after.poison p.side.other).toNat

def NonNeg (c : Core) : Prop :=
  ∀ x, 0 ≤ (c.hp x).toInt ∧ 0 ≤ (c.shield x).toInt ∧ 0 ≤ (c.buff x).toInt

/-- A successful play had room for its card in the state before it. -/
def Event.HasRoom : Event → Prop
  | .play p => p.rc = 0 → ∀ card ∈ p.card.toList, Room p.before p.side card.value.toInt card.kind
  | .draw _ _ => True
  | .tick _ => True

instance : (e : Event) → Decidable e.HasRoom
  | .play p => inferInstanceAs (Decidable (p.rc = 0 → ∀ card ∈ p.card.toList, _))
  | .draw _ _ => isTrue trivial
  | .tick _ => isTrue trivial

def AllRoom (t : List Event) : Prop := ∀ e ∈ t, e.HasRoom

instance (t : List Event) : Decidable (AllRoom t) := inferInstanceAs (Decidable (∀ e ∈ t, _))

/-- Every conversion of the history is exact, and every card moved forward. -/
def AllExact (t : List Event) : Prop :=
  (∀ e ∈ t, ∀ k ∈ e.casts, k.Exact) ∧
  ∀ p, .play p ∈ t → p.rc = 0 → ∀ card, p.card = some card → p.Forward card.kind

/-! ### Plays -/

/-- Only the subtraction from the hit points can go wrong. -/
theorem damageCasts_iff (hp shield : Int16) (dmg : ℤ) :
    (∀ k ∈ damageCasts hp shield dmg, k.Exact) ↔
      dmg - max 0 shield.toInt - hp.toInt ≤ 32768 := by
  have hb := Narrow.i16_bounds hp
  have hb' := Narrow.i16_bounds shield
  obtain ⟨hlow, hhigh⟩ := hb
  obtain ⟨hlow', hhigh'⟩ := hb'
  unfold damageCasts
  by_cases hd : dmg ≤ 0
  · rw [if_pos hd]
    exact iff_of_true (fun k hk => absurd hk List.not_mem_nil) (by omega)
  rw [if_neg hd]
  by_cases hs : 0 < shield.toInt
  · have hleft : (absorb shield dmg).2 =
        dmg - (if dmg < shield.toInt then dmg else shield.toInt) := by
      unfold absorb
      rw [if_pos hs]
    have hused : (if dmg < shield.toInt then dmg else shield.toInt) = min dmg shield.toInt := by
      split <;> omega
    have hfirst : (Cast.i16 (shield.toInt - min dmg shield.toInt)).Exact :=
      Narrow.toInt_i16 ⟨by omega, by omega⟩
    simp only [if_pos hs, hleft, hused, List.forall_mem_append, List.forall_mem_singleton, hfirst,
      true_and]
    by_cases hl : 0 < dmg - min dmg shield.toInt
    · simp only [if_pos hl, List.forall_mem_singleton]
      refine (Narrow.i16_exact_iff _).trans ⟨fun h => ?_, fun h => ⟨?_, ?_⟩⟩
      · have := h.1
        omega
      · omega
      · omega
    · simp only [if_neg hl]
      exact iff_of_true (fun k hk => absurd hk List.not_mem_nil) (by omega)
  · have hleft : (absorb shield dmg).2 = dmg := by
      unfold absorb
      rw [if_neg hs]
    simp only [if_neg hs, hleft, List.nil_append]
    rw [if_pos (by omega), List.forall_mem_singleton]
    refine (Narrow.i16_exact_iff _).trans ⟨fun h => ?_, fun h => ⟨?_, ?_⟩⟩
    · have := h.1
      omega
    · omega
    · omega

/-- The conversions of a play are exact exactly when the card has room. -/
theorem playCasts_iff {c : Core} {card : CardDef} (x : Side) (hm : card ∈ gCards)
    (hc : card.cost ≤ c.mana) :
    (∀ k ∈ playCasts c x card, k.Exact) ↔ Room c x card.value.toInt card.kind := by
  obtain ⟨_, _, _, hv, hv', _⟩ := gCards_sane card hm
  have hmana : (Cast.u8 ((c.mana.toNat : ℤ) - card.cost.toNat)).Exact := by
    rw [UInt8.le_iff_toNat_le] at hc
    have hb := Narrow.u8_bounds c.mana
    exact Narrow.toNat_u8 ⟨by omega, by omega⟩
  have hfit : ∀ f : Int16, (Cast.i16 (f.toInt + card.value.toInt)).Exact ↔
      f.toInt + card.value.toInt ≤ 32767 := by
    intro f
    have hb := (Narrow.i16_bounds f).1
    exact (Narrow.i16_exact_iff _).trans ⟨fun h => h.2, fun h => ⟨by omega, h⟩⟩
  unfold playCasts
  rw [List.forall_mem_cons, and_iff_right hmana]
  generalize card.kind = t
  cases t with
  | atk => exact damageCasts_iff _ _ _
  | heal =>
    rw [List.forall_mem_singleton]
    exact hfit _
  | shield =>
    rw [List.forall_mem_singleton]
    exact hfit _
  | buff =>
    rw [List.forall_mem_singleton]
    exact hfit _
  | poison =>
    have hval : (Cast.u8 card.value.toInt).Exact := u8_small hv hv'
    rw [List.forall_mem_cons, List.forall_mem_singleton, and_iff_right hval, u8_small hv hv']
    exact (Narrow.u8_exact_iff _).trans ⟨fun h => h.2, fun h => ⟨by omega, h⟩⟩

/-! ### Signs -/

theorem nonNeg_iff_sheet (c : Core) :
    NonNeg c ↔ ∀ x, 0 ≤ (c.sheet x).hp ∧ 0 ≤ (c.sheet x).shield ∧ 0 ≤ (c.sheet x).buff := Iff.rfl

theorem Sheet.hit_nonNeg {s : Sheet} (dmg : ℤ) (h : 0 ≤ s.hp ∧ 0 ≤ s.shield ∧ 0 ≤ s.buff) :
    0 ≤ (s.hit dmg).hp ∧ 0 ≤ (s.hit dmg).shield ∧ 0 ≤ (s.hit dmg).buff := by
  obtain ⟨hhp, hsh, hbuff⟩ := h
  unfold Sheet.hit Sheet.used
  split
  · exact ⟨hhp, hsh, hbuff⟩
  · refine ⟨?_, ?_, hbuff⟩
    · simp only
      split <;> omega
    · simp only
      split <;> omega

theorem Sheet.hit_hp_le {s : Sheet} (dmg : ℤ) (h : 0 ≤ s.hp) : (s.hit dmg).hp ≤ s.hp := by
  unfold Sheet.hit
  split
  · exact le_refl _
  · simp only
    split <;> omega

theorem Sheet.tick_nonNeg {s : Sheet} (h : 0 ≤ s.hp ∧ 0 ≤ s.shield ∧ 0 ≤ s.buff) :
    0 ≤ s.tick.hp ∧ 0 ≤ s.tick.shield ∧ 0 ≤ s.tick.buff := by
  unfold Sheet.tick
  split
  · exact ⟨le_max_left _ _, h.2⟩
  · exact h

theorem Table.play_nonNeg {T : Table} {x : Side} {v : ℤ} (t : CardType) (hv : 0 ≤ v)
    (h : ∀ y, 0 ≤ (T y).hp ∧ 0 ≤ (T y).shield ∧ 0 ≤ (T y).buff) (y : Side) :
    0 ≤ (T.play x v t y).hp ∧ 0 ≤ (T.play x v t y).shield ∧ 0 ≤ (T.play x v t y).buff := by
  have hx := h x
  have hy := h y
  cases t with
  | atk =>
    simp only [Table.play, Table.set]
    split
    · exact Sheet.hit_nonNeg _ (h x.other)
    · split
      · exact ⟨hx.1, hx.2.1, le_refl _⟩
      · exact hy
  | heal =>
    simp only [Table.play, Table.set]
    split
    · exact ⟨by have := hx.1; simp only; omega, hx.2⟩
    · exact hy
  | shield =>
    simp only [Table.play, Table.set]
    split
    · exact ⟨hx.1, by have := hx.2.1; simp only; omega, hx.2.2⟩
    · exact hy
  | buff =>
    simp only [Table.play, Table.set]
    split
    · exact ⟨hx.1, hx.2.1, by have := hx.2.2; simp only; omega⟩
    · exact hy
  | poison =>
    simp only [Table.play, Table.set]
    split
    · exact h x.other
    · exact hy

/-- With room and non-negative counters a play moves its counter forward. -/
theorem played_forward {c : Core} {x : Side} {card : CardDef} {idx : UInt8} {hand handAfter : Hand}
    (hm : card ∈ gCards) (room : Room c x card.value.toInt card.kind) (hn : NonNeg c) :
    Play.Forward ⟨x, idx, c, hand, 0, c.played x card, handAfter⟩ card.kind := by
  obtain ⟨_, _, _, hv, _, _⟩ := gCards_sane card hm
  have hsheet := played_sheet hm room
  have hself := congrFun hsheet x
  have hother := congrFun hsheet x.other
  generalize card.kind = t at hself hother ⊢
  cases t with
  | atk =>
    have h : ((c.played x card).hp x.other).toInt =
        ((c.sheet x.other).hit (card.value.toInt + (c.buff x).toInt)).hp := by
      simpa [Table.play, Table.set] using congrArg Sheet.hp hother
    change ((c.played x card).hp x.other).toInt ≤ (c.sheet x.other).hp
    rw [h]
    exact Sheet.hit_hp_le _ (hn x.other).1
  | heal =>
    have h : ((c.played x card).hp x).toInt = (c.hp x).toInt + card.value.toInt := by
      simpa [Table.play, Table.set] using congrArg Sheet.hp hself
    change (c.hp x).toInt ≤ ((c.played x card).hp x).toInt
    omega
  | shield =>
    have h : ((c.played x card).shield x).toInt = (c.shield x).toInt + card.value.toInt := by
      simpa [Table.play, Table.set] using congrArg Sheet.shield hself
    change (c.shield x).toInt ≤ ((c.played x card).shield x).toInt
    omega
  | buff =>
    have h : ((c.played x card).buff x).toInt = (c.buff x).toInt + card.value.toInt := by
      simpa [Table.play, Table.set] using congrArg Sheet.buff hself
    change (c.buff x).toInt ≤ ((c.played x card).buff x).toInt
    omega
  | poison =>
    have h : (((c.played x card).poison x.other).toNat : ℤ) =
        (c.poison x.other).toNat + card.value.toInt := by
      simpa [Table.play, Table.set] using congrArg Sheet.poison hother
    change (c.poison x.other).toNat ≤ ((c.played x card).poison x.other).toNat
    omega

theorem tickCasts_exact {c : Core} {x : Side} (h : 0 ≤ (c.hp x).toInt) :
    ∀ k ∈ tickCasts c x, k.Exact := by
  unfold tickCasts
  by_cases hpos : 0 < c.poison x
  · rw [if_pos hpos, List.forall_mem_cons, List.forall_mem_singleton]
    rw [UInt8.lt_iff_toNat_lt] at hpos
    have hb := Narrow.u8_bounds (c.poison x)
    have hb' := (Narrow.i16_bounds (c.hp x)).2
    have h0 : (0 : UInt8).toNat = 0 := rfl
    exact ⟨Narrow.toNat_u8 ⟨by omega, by omega⟩, Narrow.toInt_i16 ⟨by omega, by omega⟩⟩
  · rw [if_neg hpos]
    exact fun k hk => absurd hk List.not_mem_nil

/-! ### Whole matches -/

/-- The successful plays of a history met a playable card. -/
def PlaysMet (t : List Event) : Prop :=
  ∀ p, .play p ∈ t → p.rc = 0 → ∃ card, playable p.before p.hand p.idx = some card

theorem playsMet_step {v w : View} (hstep : Step v w) (h : PlaysMet v.trace) :
    PlaysMet w.trace := by
  intro p hp hrc
  cases hstep with
  | play live main turn ok =>
    rcases List.mem_cons.mp hp with heq | hp
    · cases heq
      exact ⟨_, ok⟩
    · exact h p hp hrc
  | refuse live main turn no =>
    rcases List.mem_cons.mp hp with heq | hp
    · cases heq
      exact absurd hrc (refusal_ne_zero _ _)
    · exact h p hp hrc
  | tick | draw =>
    rcases List.mem_cons.mp hp with heq | hp
    · cases heq
    · exact h p hp hrc

theorem Reachable.playsMet {v : View} (h : Reachable v) : PlaysMet v.trace := by
  refine h.invariant (P := fun v => PlaysMet v.trace) ?_ fun _ _ => playsMet_step
  intro hand _ p hp
  simp [View.start] at hp

theorem AllRoom.tail {e : Event} {t : List Event} (h : AllRoom (e :: t)) : AllRoom t :=
  fun e he => h e (List.mem_cons_of_mem _ he)

theorem AllExact.push {e : Event} {t : List Event} (h : AllExact t)
    (hcasts : ∀ k ∈ e.casts, k.Exact)
    (hplay : ∀ p, e = .play p → p.rc = 0 → ∀ card, p.card = some card → p.Forward card.kind) :
    AllExact (e :: t) := by
  refine ⟨List.forall_mem_cons.mpr ⟨hcasts, h.1⟩, fun p hp => ?_⟩
  rcases List.mem_cons.mp hp with heq | hp
  · exact hplay p heq.symm
  · exact h.2 p hp

theorem nonNeg_check {c : Core} (h : NonNeg c) : NonNeg c.check := by
  rw [nonNeg_iff_sheet, Core.sheet_check]
  exact h

theorem exact_step {v w : View} (hstep : Step v w)
    (h : AllRoom v.trace → NonNeg v.core ∧ AllExact v.trace) (room : AllRoom w.trace) :
    NonNeg w.core ∧ AllExact w.trace := by
  cases hstep with
  | @play x idx card live main turn ok =>
    obtain ⟨hn, hex⟩ := h room.tail
    obtain ⟨_, hk, hc⟩ := playable_iff.mp ok
    have hm := playable_mem ok
    have hroom : Room v.core x card.value.toInt card.kind :=
      room _ List.mem_cons_self rfl card (by simp [Play.card, hk])
    obtain ⟨_, _, _, hv, _, _⟩ := gCards_sane card hm
    refine ⟨?_, hex.push ?_ ?_⟩
    · rw [nonNeg_iff_sheet, played_sheet hm hroom]
      exact Table.play_nonNeg _ (by omega) hn
    · have hcasts : Event.casts (.play ⟨x, idx, v.core, v.hand, 0, v.core.played x card,
          v.hand.after idx x⟩) = playCasts v.core x card := by
        simp [Event.casts, Play.card, hk]
      rw [hcasts]
      exact (playCasts_iff x hm hc).mpr hroom
    · rintro p heq _ card' hcard
      cases heq
      obtain rfl : card = card' := Option.some.inj (hk.symm.trans hcard)
      exact played_forward hm hroom hn
  | @refuse idx live main turn no =>
    obtain ⟨hn, hex⟩ := h room.tail
    have hrc := refusal_ne_zero v.hand idx
    refine ⟨hn, hex.push ?_ ?_⟩
    · simp [Event.casts, hrc]
    · rintro p heq hz
      cases heq
      exact absurd hz hrc
  | tick live main turn =>
    obtain ⟨hn, hex⟩ := h room.tail
    have hn' : NonNeg v.core.ending := hn
    have hsheet := tickAll_sheet (c := v.core.ending) fun x => (hn' x).1
    refine ⟨?_, hex.push ?_ (by simp)⟩
    · apply nonNeg_check
      rw [nonNeg_iff_sheet, hsheet]
      exact fun x => Sheet.tick_nonNeg (hn' x)
    · have hp := (hn' .player).1
      have ha : 0 ≤ ((v.core.ending.tickIf .player).hp .ai).toInt := by
        have hs := congrArg Sheet.hp (tickIf_sheet hp .ai)
        rw [if_neg (by decide)] at hs
        change ((v.core.ending.tickIf .player).hp .ai).toInt = _ at hs
        rw [hs]
        exact (hn' .ai).1
      exact List.forall_mem_append.mpr ⟨tickCasts_exact hp, tickCasts_exact ha⟩
  | draw live ended turn dealt =>
    obtain ⟨hn, hex⟩ := h room.tail
    refine ⟨?_, hex.push (by simp [Event.casts]) (by simp)⟩
    intro y
    cases y
    · exact hn .player
    · exact hn .ai

/-- A match in which every card had room is exact and never negative. -/
theorem Reachable.exact {v : View} (h : Reachable v) (room : AllRoom v.trace) :
    NonNeg v.core ∧ AllExact v.trace := by
  refine h.invariant (P := fun v => AllRoom v.trace → NonNeg v.core ∧ AllExact v.trace) ?_
    (fun _ _ => exact_step) room
  intro hand _ _
  refine ⟨?_, ?_, ?_⟩
  · intro x
    cases x
    · change 0 ≤ (30 : Int16).toInt ∧ 0 ≤ (0 : Int16).toInt ∧ 0 ≤ (0 : Int16).toInt
      decide
    · change 0 ≤ (30 : Int16).toInt ∧ 0 ≤ (0 : Int16).toInt ∧ 0 ≤ (0 : Int16).toInt
      decide
  · simp [View.start, Event.casts]
  · simp [View.start]

/-- Exactness is nothing but room. -/
theorem Reachable.room_of_exact {v : View} (h : Reachable v) (hex : AllExact v.trace) :
    AllRoom v.trace := by
  intro e he
  cases e with
  | draw | tick => trivial
  | play p =>
    intro hrc card hcard
    rw [Option.mem_toList] at hcard
    obtain ⟨card', hok⟩ := h.playsMet p he hrc
    obtain ⟨_, hk, hc⟩ := playable_iff.mp hok
    obtain rfl : card' = card := Option.some.inj (hk.symm.trans hcard)
    refine (playCasts_iff p.side (playable_mem hok) hc).mp ?_
    have hcasts : Event.casts (.play p) = playCasts p.before p.side card' := by
      simp [Event.casts, hrc, Option.mem_def.mp hcard]
    rw [← hcasts]
    exact hex.1 _ he

end MiniTcg.Game
