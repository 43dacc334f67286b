import MiniTcg.Game.Invariant

/-!
# How often a dealt card is played

The AI's loop empties the slot it has played; the `OP_PLAY_CARD` branch does not.
`PlayedOnce` is what a card game promises of every play of a history. The AI
always keeps it, and a history keeps it exactly when the player never succeeded
in playing a card.
-/
namespace MiniTcg.Game

/-- Each slot is played successfully at most once between two draws, is empty
after it, and a further play of it is refused with `-3` and has no effect. -/
def PlayedOnce (t : List Event) : Prop :=
  (∀ t', t' <:+ t → ∀ i, ((sinceDraw t').filter (fun p => p.rc = 0 ∧ p.idx = i)).length ≤ 1) ∧
  (∀ q t', .play q :: t' <:+ t →
    (q.rc = 0 → q.handAfter.card q.idx.toNat = 0) ∧
    ∀ p ∈ sinceDraw t', p.rc = 0 → p.idx = q.idx →
      q.rc = -3 ∧ q.after = q.before ∧ q.handAfter = q.hand)

/-- Every play of the player was refused. -/
def PlayerRefused (t : List Event) : Prop := ∀ p, .play p ∈ t → p.side = .player → p.rc ≠ 0

/-- What a history records of its plays: the player's leave the hand, the AI's
are played from full slots and clear them, and one side plays between two draws. -/
structure PlaysOk (t : List Event) : Prop where
  player : ∀ p, .play p ∈ t → p.side = .player →
    p.handAfter = p.hand ∧ (p.rc = 0 → p.hand.card p.idx.toNat ≠ 0)
  ai : ∀ p t', .play p :: t' <:+ t → p.side = .ai →
    p.handAfter.card p.idx.toNat = 0 ∧
      ∀ q ∈ sinceDraw t', q.side = .ai → q.idx ≠ p.idx
  mover : ∀ p t', .play p :: t' <:+ t → ∀ q ∈ sinceDraw t', q.side = p.side

/-- The slots the AI has played since the draw are empty, and only the side to
move has played since then. -/
structure SlotInv (v : View) : Prop where
  plays : PlaysOk v.trace
  empty : ∀ p ∈ sinceDraw v.trace, p.side = .ai → v.hand.card p.idx.toNat = 0
  mover : ∀ p ∈ sinceDraw v.trace, p.side.turn = v.core.turn

theorem Side.turn_inj {x y : Side} (h : x.turn = y.turn) : x = y := by
  cases x <;> cases y <;> first | rfl | exact absurd h (by decide)

theorem suffix_cons_cases {α : Type*} {a b : α} {l t : List α} (h : a :: l <:+ b :: t) :
    (a = b ∧ l = t) ∨ a :: l <:+ t := by
  rcases List.suffix_cons_iff.mp h with he | hs
  · simp only [List.cons.injEq] at he
    exact Or.inl he
  · exact Or.inr hs

theorem PlaysOk.push {t : List Event} {e : Event} (h : PlaysOk t) (he : ∀ p, e ≠ .play p) :
    PlaysOk (e :: t) := by
  refine ⟨fun p hp => ?_, fun p t' hs => ?_, fun p t' hs => ?_⟩
  · rcases List.mem_cons.mp hp with heq | hp
    · exact absurd heq.symm (he p)
    · exact h.player p hp
  · rcases suffix_cons_cases hs with ⟨heq, _⟩ | hs
    · exact absurd heq.symm (he p)
    · exact h.ai p t' hs
  · rcases suffix_cons_cases hs with ⟨heq, _⟩ | hs
    · exact absurd heq.symm (he p)
    · exact h.mover p t' hs

/-- With a play of the side to move, one side has still played between two draws. -/
theorem SlotInv.mover_play {v : View} (h : SlotInv v) {q : Play} (turn : v.core.turn = q.side.turn) :
    ∀ p t', .play p :: t' <:+ .play q :: v.trace → ∀ p' ∈ sinceDraw t', p'.side = p.side := by
  intro p t' hs p' hp'
  rcases suffix_cons_cases hs with ⟨he, rfl⟩ | hs
  · cases he
    exact Side.turn_inj ((h.mover p' hp').trans turn)
  · exact h.plays.mover p t' hs p' hp'

theorem slotInv_play {v : View} {x : Side} {idx : UInt8} {card : CardDef} (h : SlotInv v)
    (turn : v.core.turn = x.turn) (ok : playable v.core v.hand idx = some card) :
    SlotInv ⟨v.core.played x card, v.hand.after idx x,
      .play ⟨x, idx, v.core, v.hand, 0, v.core.played x card, v.hand.after idx x⟩ :: v.trace⟩ := by
  have hz := playable_card_ne_zero ok
  refine ⟨⟨?_, ?_, h.mover_play turn⟩, ?_, ?_⟩
  · intro p hp hside
    rcases List.mem_cons.mp hp with he | hp
    · cases he
      obtain rfl : x = .player := hside
      exact ⟨rfl, fun _ => hz⟩
    · exact h.plays.player p hp hside
  · intro p t' hs hside
    rcases suffix_cons_cases hs with ⟨he, rfl⟩ | hs
    · cases he
      obtain rfl : x = .ai := hside
      refine ⟨Hand.card_clear_self _ _, fun q hq hq' heq => hz ?_⟩
      have := h.empty q hq hq'
      rwa [heq] at this
    · exact h.plays.ai p t' hs hside
  · intro p hp hside
    rcases List.mem_cons.mp hp with rfl | hp
    · obtain rfl : x = .ai := hside
      exact Hand.card_clear_self _ _
    · have hempty := h.empty p hp hside
      cases x with
      | player => exact hempty
      | ai =>
        change (v.hand.clear idx.toNat).card p.idx.toNat = 0
        rw [Hand.card_clear]
        split
        · rfl
        · exact hempty
  · intro p hp
    rw [Core.played_turn]
    rcases List.mem_cons.mp hp with rfl | hp
    · exact turn.symm
    · exact h.mover p hp

theorem slotInv_step {v w : View} (hstep : Step v w) (h : SlotInv v) : SlotInv w := by
  cases hstep with
  | play live main turn ok => exact slotInv_play h turn ok
  | @refuse idx live main turn no =>
    refine ⟨⟨?_, ?_, h.mover_play turn⟩, ?_, ?_⟩
    · intro p hp hside
      rcases List.mem_cons.mp hp with he | hp
      · cases he
        exact ⟨rfl, fun hrc => absurd hrc (refusal_ne_zero _ _)⟩
      · exact h.plays.player p hp hside
    · intro p t' hs hside
      rcases suffix_cons_cases hs with ⟨he, rfl⟩ | hs
      · cases he
        cases hside
      · exact h.plays.ai p t' hs hside
    · intro p hp hside
      rcases List.mem_cons.mp hp with rfl | hp
      · cases hside
      · exact h.empty p hp hside
    · intro p hp
      rcases List.mem_cons.mp hp with rfl | hp
      · exact turn.symm
      · exact h.mover p hp
  | tick live main turn =>
    refine ⟨h.plays.push (by simp), h.empty, fun p hp => ?_⟩
    rw [Core.check_turn, Core.tickAll_turn]
    exact h.mover p hp
  | draw live ended turn dealt =>
    refine ⟨h.plays.push (by simp), fun p hp => ?_, fun p hp => ?_⟩
    · exact absurd hp List.not_mem_nil
    · exact absurd hp List.not_mem_nil

theorem Reachable.slots {v : View} (h : Reachable v) : SlotInv v := by
  refine h.invariant (P := SlotInv) ?_ fun _ _ => slotInv_step
  intro hand _
  have hnil : PlaysOk [] := by
    refine ⟨fun p hp => absurd hp List.not_mem_nil, fun p t' hs => ?_, fun p t' hs => ?_⟩
    · cases List.suffix_nil.mp hs
    · cases List.suffix_nil.mp hs
  refine ⟨hnil.push (by simp), fun p hp => ?_, fun p hp => ?_⟩
  · exact absurd hp List.not_mem_nil
  · exact absurd hp List.not_mem_nil

theorem mem_of_sinceDraw {t : List Event} {p : Play} (h : p ∈ sinceDraw t) : .play p ∈ t := by
  induction t with
  | nil => exact absurd h List.not_mem_nil
  | cons e t ih =>
    cases e with
    | draw turn hand => exact absurd h List.not_mem_nil
    | tick c => exact List.mem_cons_of_mem _ (ih h)
    | play q =>
      rcases List.mem_cons.mp h with rfl | h
      · exact List.mem_cons_self
      · exact List.mem_cons_of_mem _ (ih h)

/-- Slots that are refused after a success are played at most once. -/
theorem at_most_once {t : List Event}
    (h : ∀ q t', .play q :: t' <:+ t → ∀ p ∈ sinceDraw t', p.rc = 0 → p.idx = q.idx → q.rc ≠ 0)
    {t' : List Event} (hs : t' <:+ t) (i : UInt8) :
    ((sinceDraw t').filter (fun p => p.rc = 0 ∧ p.idx = i)).length ≤ 1 := by
  induction t' with
  | nil => exact Nat.zero_le _
  | cons e t' ih =>
    have hs' : t' <:+ t := (List.suffix_cons e t').trans hs
    cases e with
    | draw turn hand => exact Nat.zero_le _
    | tick c => exact ih hs'
    | play q =>
      by_cases hq : q.rc = 0 ∧ q.idx = i
      · have hnone : (sinceDraw t').filter (fun p => p.rc = 0 ∧ p.idx = i) = [] := by
          rw [List.filter_eq_nil_iff]
          intro p hp hpi
          simp only [decide_eq_true_eq] at hpi
          exact h q t' hs p hp hpi.1 (hpi.2.trans hq.2.symm) hq.1
        rw [sinceDraw, List.filter_cons_of_pos (by simpa using hq), hnone]
        exact Nat.le_refl 1
      · have heq : (sinceDraw (.play q :: t')).filter (fun p => p.rc = 0 ∧ p.idx = i) =
            (sinceDraw t').filter (fun p => p.rc = 0 ∧ p.idx = i) :=
          List.filter_cons_of_neg (by simpa using hq)
        rw [heq]
        exact ih hs'

/-- A history plays every card at most once exactly when no play of the player
succeeded. -/
theorem playedOnce_iff {v : View} (h : Reachable v) :
    PlayedOnce v.trace ↔ PlayerRefused v.trace := by
  have hinv := h.slots.plays
  constructor
  · intro hp p hmem hside hrc
    obtain ⟨hand, hcard⟩ := hinv.player p hmem hside
    obtain ⟨before, after, heq⟩ := List.append_of_mem hmem
    have hempty := (hp.2 p after ⟨before, heq.symm⟩).1 hrc
    rw [hand] at hempty
    exact hcard hrc hempty
  · intro hno
    have hai : ∀ q, .play q ∈ v.trace → q.rc = 0 → q.side = .ai := by
      intro q hq hrc
      cases hside : q.side with
      | player => exact absurd hrc (hno q hq hside)
      | ai => rfl
    have hnever : ∀ q t', .play q :: t' <:+ v.trace → ∀ p ∈ sinceDraw t', p.rc = 0 →
        p.idx ≠ q.idx := by
      intro q t' hs p hp hrc
      have hp' : .play p ∈ v.trace :=
        hs.subset (List.mem_cons_of_mem _ (mem_of_sinceDraw hp))
      have hpai := hai p hp' hrc
      have hq : q.side = .ai := (hinv.mover q t' hs p hp).symm.trans hpai
      exact (hinv.ai q t' hs hq).2 p hp hpai
    refine ⟨fun t' hs i => at_most_once ?_ hs i, fun q t' hs => ⟨fun hrc => ?_, ?_⟩⟩
    · intro q t' hs p hp hrc heq
      exact absurd heq (hnever q t' hs p hp hrc)
    · exact (hinv.ai q t' hs (hai q (hs.subset List.mem_cons_self) hrc)).1
    · intro p hp hrc heq
      exact absurd heq (hnever q t' hs p hp hrc)

/-! ### Who adds plays to a history -/

theorem playerRefused_push {e : Event} {t : List Event}
    (he : ∀ p, e = .play p → p.side = .player → p.rc ≠ 0) :
    PlayerRefused (e :: t) ↔ PlayerRefused t := by
  constructor
  · intro h p hp
    exact h p (List.mem_cons_of_mem _ hp)
  · intro h p hp
    rcases List.mem_cons.mp hp with heq | hp
    · exact he p heq.symm
    · exact h p hp

theorem phaseTick_refused (g : Match) :
    PlayerRefused (phaseTick g).trace ↔ PlayerRefused g.trace :=
  playerRefused_push (by simp)

theorem enterTurn_refused (g : Match) (side : UInt8) :
    PlayerRefused (enterTurn g side).trace ↔ PlayerRefused g.trace :=
  playerRefused_push (by simp)

theorem phaseEnd_refused (g : Match) :
    PlayerRefused (phaseEnd g).trace ↔ PlayerRefused g.trace := by
  unfold phaseEnd
  simp only
  split
  · exact phaseTick_refused g
  · rw [enterTurn_refused, phaseTick_refused]

theorem aiLoopUpTo_refused (k : ℕ) (g : Match) :
    PlayerRefused (aiLoopUpTo k g).trace ↔ PlayerRefused g.trace := by
  induction k generalizing g with
  | zero => exact Iff.rfl
  | succ k ih =>
    rw [aiLoopUpTo]
    split
    · cases aiBest g.st.toCore g.hand with
      | none => exact Iff.rfl
      | some i =>
        refine (ih (aiPlay g i)).trans (playerRefused_push ?_)
        rintro p heq hside
        cases heq
        cases hside
    · exact Iff.rfl

theorem processAiTurn_refused (g : Match) :
    PlayerRefused (processAiTurn g).trace ↔ PlayerRefused g.trace := by
  unfold processAiTurn
  simp only
  split
  · rw [phaseEnd_refused]
    exact aiLoopUpTo_refused 8 g
  · exact aiLoopUpTo_refused 8 g

/-- The player's play is refused exactly when it meets no playable card. -/
theorem playerPlay_refused (g : Match) (idx : UInt8) :
    PlayerRefused (playerPlay g idx).trace ↔
      PlayerRefused g.trace ∧ playable g.st.toCore g.hand idx = none := by
  have hrc := handlePlayCard_rc g.st g.hand .player idx
  constructor
  · intro h
    refine ⟨fun p hp => h p (List.mem_cons_of_mem _ hp), ?_⟩
    have hne := h _ List.mem_cons_self rfl
    rw [← Option.not_isSome_iff_eq_none]
    exact fun hs => hne (hrc.mpr hs)
  · rintro ⟨h, hnone⟩ p hp hside
    rcases List.mem_cons.mp hp with heq | hp
    · cases heq
      intro hz
      have hs := hrc.mp hz
      rw [hnone] at hs
      cases hs
    · exact h p hp hside

end MiniTcg.Game
