import MiniTcg.Game.Step

/-!
# Both sides play by the same rules

`State.swap` exchanges the two sides of a state. Playing a card for the other
side and ending the phase commute with it, up to the texts in the log ring.
-/
namespace MiniTcg.Game

def swapTurn (t : UInt8) : UInt8 := if t = 0 then 1 else if t = 1 then 0 else t

def swapWinner (w : UInt8) : UInt8 := if w = 1 then 2 else if w = 2 then 1 else w

def Core.swap (c : Core) : Core :=
  { c with
    pHp := c.aiHp
    aiHp := c.pHp
    turn := swapTurn c.turn
    winner := swapWinner c.winner
    pShield := c.aiShield
    aiShield := c.pShield
    pBuff := c.aiBuff
    aiBuff := c.pBuff
    pPoison := c.aiPoison
    aiPoison := c.pPoison }

def State.swap (st : State) : State := st.update Core.swap

/-- Equal in every field but `logs`. -/
def SameButText (st st' : State) : Prop := st.toCore = st'.toCore ∧ st.logHead = st'.logHead

/-! ### The fields -/

section Fields
variable (c : Core) (x : Side) (card : CardDef)

@[simp] theorem Core.swap_hp : c.swap.hp x.other = c.hp x := by cases x <;> rfl
@[simp] theorem Core.swap_shield : c.swap.shield x.other = c.shield x := by cases x <;> rfl
@[simp] theorem Core.swap_buff : c.swap.buff x.other = c.buff x := by cases x <;> rfl
@[simp] theorem Core.swap_poison : c.swap.poison x.other = c.poison x := by cases x <;> rfl

theorem Core.swap_setHp (v : Int16) : (c.setHp v x).swap = c.swap.setHp v x.other := by
  cases x <;> rfl
theorem Core.swap_setShield (v : Int16) : (c.setShield v x).swap = c.swap.setShield v x.other := by
  cases x <;> rfl
theorem Core.swap_setBuff (v : Int16) : (c.setBuff v x).swap = c.swap.setBuff v x.other := by
  cases x <;> rfl
theorem Core.swap_setPoison (v : UInt8) : (c.setPoison v x).swap = c.swap.setPoison v x.other := by
  cases x <;> rfl

theorem Core.swap_applyCard (v : Int16) (t : CardType) :
    (c.applyCard x v t).swap = c.swap.applyCard x.other v t := by
  cases t with
  | atk =>
    simp only [Core.applyCard, Core.attack, Core.swap_setShield, Core.swap_setHp, Core.swap_setBuff,
      Core.hp_setBuff, Core.shield_setBuff, Core.swap_hp, Core.swap_shield, Core.swap_buff]
  | heal => simp only [Core.applyCard, Core.swap_setHp, Core.swap_hp]
  | shield => simp only [Core.applyCard, Core.swap_setShield, Core.swap_shield]
  | buff => simp only [Core.applyCard, Core.swap_setBuff, Core.swap_buff]
  | poison => simp only [Core.applyCard, Core.swap_setPoison, Core.swap_poison]

theorem Core.swap_verdict : c.swap.verdict = swapWinner c.verdict := by
  show (if c.pHp.toInt < c.aiHp.toInt then 1 else if c.aiHp.toInt < c.pHp.toInt then 2 else 0) = _
  unfold Core.verdict
  by_cases hlt : c.pHp.toInt < c.aiHp.toInt
  · rw [if_pos hlt, if_neg (by omega), if_pos hlt]
    rfl
  · rw [if_neg hlt, if_neg hlt]
    split
    · rfl
    · rfl

theorem Core.swap_check : c.check.swap = c.swap.check := by
  unfold Core.check
  show _ = if c.gameOver ≠ 0 then c.swap else if c.aiHp.toInt ≤ 0 ∨ c.pHp.toInt ≤ 0 then _ else _
  split
  · rfl
  · by_cases hdead : c.pHp.toInt ≤ 0 ∨ c.aiHp.toInt ≤ 0
    · rw [if_pos hdead, if_pos hdead.symm, Core.swap_verdict]
      rfl
    · rw [if_neg hdead, if_neg fun h => hdead h.symm]

theorem Core.swap_tick : (c.tick x).swap = c.swap.tick x.other := by
  unfold Core.tick
  simp only [← Core.swap_setPoison, ← Core.swap_setHp, Core.swap_hp, Core.swap_poison]
  split
  · rfl
  · rfl

theorem Core.swap_tickIf : (c.tickIf x).swap = c.swap.tickIf x.other := by
  unfold Core.tickIf
  rw [Core.swap_poison]
  split
  · exact Core.swap_tick c x
  · rfl

/-- The hp a side's block of `tick_poison` leaves. -/
def tickedHp (poison : UInt8) (hp : Int16) : Int16 :=
  if 0 < poison then if (Narrow.i16 (hp.toInt - 2)).toInt < 0 then 0 else Narrow.i16 (hp.toInt - 2)
  else hp

/-- The poison a side's block of `tick_poison` leaves. -/
def tickedPoison (poison : UInt8) : UInt8 :=
  if 0 < poison then Narrow.u8 (poison.toNat - 1) else poison

/-- A side's block of `tick_poison` reads and writes that side's fields only. -/
theorem Core.tickIf_eq : c.tickIf x =
    (c.setHp (tickedHp (c.poison x) (c.hp x)) x).setPoison (tickedPoison (c.poison x)) x := by
  unfold Core.tickIf Core.tick tickedHp tickedPoison
  by_cases hp : 0 < c.poison x
  · simp only [if_pos hp, if_true, Core.hp_setPoison, Core.hp_setHp]
    by_cases hneg : (Narrow.i16 ((c.hp x).toInt - 2)).toInt < 0
    · simp only [if_pos hneg]
      cases x <;> rfl
    · simp only [if_neg hneg]
      cases x <;> rfl
  · simp only [if_neg hp]
    cases x <;> rfl

theorem Core.tickIf_comm : (c.tickIf .player).tickIf .ai = (c.tickIf .ai).tickIf .player := by
  simp only [Core.tickIf_eq]
  rfl

theorem Core.swap_tickAll : c.tickAll.swap = c.swap.tickAll := by
  unfold Core.tickAll
  rw [Core.swap_tickIf, Core.swap_tickIf]
  exact (c.swap.tickIf_comm).symm

end Fields

/-! ### The log index -/

/-- The log index after a `push_log` that is made only if `b` holds. -/
def bump (b : Prop) [Decidable b] (head : UInt8) : UInt8 :=
  if b then Narrow.u8 (((head.toNat + 1) % logLines : ℕ) : ℤ) else head

theorem bump_comm (a b : Prop) [Decidable a] [Decidable b] (head : UInt8) :
    bump a (bump b head) = bump b (bump a head) := by
  unfold bump
  by_cases ha : a
  · by_cases hb : b
    · rw [if_pos hb, if_pos ha, if_pos ha, if_pos hb]
    · rw [if_neg hb, if_neg hb]
  · rw [if_neg ha, if_neg ha]

theorem tickSide_logHead (st : State) (x : Side) (msg : String) :
    (tickSide st x msg).logHead = bump (0 < st.poison x) st.logHead := by
  unfold tickSide bump
  split
  · rfl
  · rfl

theorem tickPoison_logHead (st : State) :
    (tickPoison st).logHead =
      bump (0 < st.poison .ai) (bump (0 < st.poison .player) st.logHead) := by
  unfold tickPoison
  rw [tickSide_logHead, tickSide_logHead]
  simp only [tickSide_toCore]
  rw [show (st.toCore.tickIf .player).poison .ai = st.poison .ai by rw [Core.tickIf_eq]; rfl]

theorem checkGameOver_logHead (st : State) :
    (checkGameOver st).logHead =
      bump (st.gameOver = 0 ∧ (st.pHp.toInt ≤ 0 ∨ st.aiHp.toInt ≤ 0)) st.logHead := by
  unfold checkGameOver bump
  by_cases hover : st.gameOver = 0
  · simp only [hover, ne_eq, not_true_eq_false, if_false, true_and]
    split
    · rfl
    · rfl
  · rw [if_pos hover, if_neg fun h => hover h.1]

/-! ### Two runs -/

/-- `st'` is `st` with the sides exchanged, the texts in its log apart. -/
structure Mirror (st st' : State) : Prop where
  core : st'.toCore = st.toCore.swap
  head : st'.logHead = st.logHead

theorem mirror_swap (st : State) : Mirror st st.swap := ⟨rfl, rfl⟩

theorem Mirror.same {st st' : State} (h : Mirror st st') : SameButText st' st.swap := ⟨h.core, h.head⟩

section Two
variable {st st' : State}

theorem Mirror.turn (h : Mirror st st') : st'.turn = swapTurn st.turn := by
  rw [h.core]
  rfl

theorem Mirror.gameOver (h : Mirror st st') : st'.gameOver = st.gameOver := by
  rw [h.core]
  rfl

theorem Mirror.update (h : Mirror st st') {f f' : Core → Core} (hf : ∀ c, (f c).swap = f' c.swap) :
    Mirror (st.update f) (st'.update f') := by
  refine ⟨?_, h.head⟩
  rw [State.update_toCore, State.update_toCore, h.core, hf]

theorem Mirror.pushLog (h : Mirror st st') (msg msg' : List UInt8) :
    Mirror (pushLog st msg) (pushLog st' msg') := by
  refine ⟨h.core, ?_⟩
  simp only [Game.pushLog, h.head]

theorem Mirror.checkGameOver (h : Mirror st st') : Mirror (checkGameOver st) (checkGameOver st') := by
  refine ⟨?_, ?_⟩
  · rw [checkGameOver_toCore, checkGameOver_toCore, h.core, Core.swap_check]
  · have hover : st'.gameOver = st.gameOver := by rw [h.core]; rfl
    have hp : st'.pHp = st.aiHp := by rw [h.core]; rfl
    have ha : st'.aiHp = st.pHp := by rw [h.core]; rfl
    rw [checkGameOver_logHead, checkGameOver_logHead, h.head]
    simp only [hover, hp, ha, or_comm]

/-- `handle_play_card` for the other side. -/
theorem Mirror.handlePlayCard (h : Mirror st st') (hand : Hand) (x : Side) (idx : UInt8) :
    (handlePlayCard st' hand x.other idx).2 = (handlePlayCard st hand x idx).2 ∧
      Mirror (handlePlayCard st hand x idx).1 (handlePlayCard st' hand x.other idx).1 := by
  have hmana : st'.mana = st.mana := by rw [h.core]; rfl
  unfold Game.handlePlayCard
  split
  · exact ⟨rfl, h⟩
  · simp only
    split
    · exact ⟨rfl, h⟩
    · split
      · exact ⟨rfl, h⟩
      · rename_i card _
        rw [hmana]
        split
        · exact ⟨rfl, h⟩
        · have hpaid : Mirror (st.update fun c => c.pay card) (st'.update fun c => c.pay card) :=
            h.update fun _ => rfl
          unfold playEffect
          cases CardType.ofByte card.type with
          | none => exact ⟨rfl, hpaid⟩
          | some t =>
            refine ⟨rfl, Mirror.checkGameOver (Mirror.pushLog (hpaid.update ?_) _ _)⟩
            exact fun c => Core.swap_applyCard c x card.value t

theorem Mirror.tickPoison (h : Mirror st st') : Mirror (tickPoison st) (tickPoison st') := by
  refine ⟨?_, ?_⟩
  · rw [tickPoison_toCore, tickPoison_toCore, h.core, Core.swap_tickAll]
  · have hp : st'.poison .player = st.poison .ai := by rw [h.core]; rfl
    have ha : st'.poison .ai = st.poison .player := by rw [h.core]; rfl
    rw [tickPoison_logHead, tickPoison_logHead, h.head]
    simp only [hp, ha]
    exact bump_comm _ _ _

end Two

/-- Two matches with the sides exchanged, the same hand and the same draws to
come. -/
structure MatchMirror (g g' : Match) : Prop where
  st : Mirror g.st g'.st
  hand : g'.hand = g.hand
  rng : g'.rng = g.rng

section Turns
variable {g g' : Match}

theorem MatchMirror.phaseTick (h : MatchMirror g g') : MatchMirror (phaseTick g) (phaseTick g') := by
  unfold Game.phaseTick
  refine ⟨?_, h.hand, h.rng⟩
  apply Mirror.checkGameOver
  apply Mirror.tickPoison
  apply Mirror.pushLog
  exact h.st.update fun _ => rfl

theorem MatchMirror.enterTurn (h : MatchMirror g g') {side side' : UInt8}
    (hs : side' = swapTurn side) : MatchMirror (enterTurn g side) (enterTurn g' side') := by
  subst hs
  refine ⟨?_, ?_, ?_⟩
  · simp only [Game.enterTurn, phaseDraw]
    apply Mirror.update
    · apply Mirror.pushLog
      apply Mirror.update
      · exact h.st.update fun _ => rfl
      · exact fun _ => rfl
    · exact fun _ => rfl
  · show dealHand g'.rng = dealHand g.rng
    rw [h.rng]
  · show (fun k => g'.rng (k + 3)) = fun k => g.rng (k + 3)
    rw [h.rng]

theorem MatchMirror.phaseEnd (h : MatchMirror g g') (turn : g.st.turn = 0 ∨ g.st.turn = 1) :
    MatchMirror (phaseEnd g) (phaseEnd g') ∧
      ((phaseEnd g).st.turn = 0 ∨ (phaseEnd g).st.turn = 1) := by
  have ht := h.phaseTick
  unfold Game.phaseEnd
  simp only [ht.st.gameOver, ht.st.turn, phaseTick_turn]
  split
  · exact ⟨ht, by rwa [phaseTick_turn]⟩
  · rcases turn with h0 | h1
    · rw [h0]
      exact ⟨ht.enterTurn rfl, Or.inr rfl⟩
    · rw [h1]
      exact ⟨ht.enterTurn rfl, Or.inl rfl⟩

end Turns

/-! ### Runs -/

/-- A call of `handle_play_card`, its caller clearing a slot of the hand, and a
call of `phase_end`. -/
inductive Move
  | play (x : Side) (idx : UInt8)
  | clear (i : ℕ)
  | phaseEnd
  deriving DecidableEq

def Move.swap : Move → Move
  | .play x idx => .play x.other idx
  | .clear i => .clear i
  | .phaseEnd => .phaseEnd

/-- The match a move leaves and the return code of a play. -/
def Move.apply (g : Match) : Move → Match × Option ℤ
  | .play x idx =>
    let r := handlePlayCard g.st g.hand x idx
    ({ g with st := r.1 }, some r.2)
  | .clear i => ({ g with hand := g.hand.clear i }, none)
  | .phaseEnd => (Game.phaseEnd g, none)

def runMoves : Match → List Move → Match × List (Option ℤ)
  | g, [] => (g, [])
  | g, m :: ms =>
    let r := m.apply g
    let rest := runMoves r.1 ms
    (rest.1, r.2 :: rest.2)

theorem handlePlayCard_turn (st : State) (hand : Hand) (x : Side) (idx : UInt8) :
    (handlePlayCard st hand x idx).1.turn = st.turn := by
  cases hp : playable st.toCore hand idx with
  | none => rw [handlePlayCard_refused x hp]
  | some card => rw [(handlePlayCard_ok x hp).2, Core.played_turn]

theorem Move.apply_mirror {g g' : Match} (h : MatchMirror g g')
    (turn : g.st.turn = 0 ∨ g.st.turn = 1) (m : Move) :
    (m.swap.apply g').2 = (m.apply g).2 ∧ MatchMirror (m.apply g).1 (m.swap.apply g').1 ∧
      ((m.apply g).1.st.turn = 0 ∨ (m.apply g).1.st.turn = 1) := by
  cases m with
  | play x idx =>
    obtain ⟨hrc, hst⟩ := h.st.handlePlayCard g.hand x idx
    simp only [Move.swap, Move.apply, h.hand]
    refine ⟨by rw [hrc], ⟨hst, rfl, h.rng⟩, ?_⟩
    rwa [handlePlayCard_turn]
  | clear i =>
    refine ⟨rfl, ⟨h.st, ?_, h.rng⟩, turn⟩
    show g'.hand.clear i = g.hand.clear i
    rw [h.hand]
  | phaseEnd =>
    simp only [Move.swap, Move.apply]
    exact ⟨trivial, h.phaseEnd turn⟩

theorem runMoves_mirror {g g' : Match} (h : MatchMirror g g')
    (turn : g.st.turn = 0 ∨ g.st.turn = 1) (ms : List Move) :
    (runMoves g' (ms.map Move.swap)).2 = (runMoves g ms).2 ∧
      MatchMirror (runMoves g ms).1 (runMoves g' (ms.map Move.swap)).1 := by
  induction ms generalizing g g' with
  | nil => exact ⟨rfl, h⟩
  | cons m ms ih =>
    obtain ⟨hrc, hm, ht⟩ := m.apply_mirror h turn
    obtain ⟨hcodes, hend⟩ := ih hm ht
    refine ⟨?_, hend⟩
    show (m.swap.apply g').2 :: _ = (m.apply g).2 :: _
    rw [hrc, hcodes]

/-- The rules treat both sides alike: a play for the other side, the end of a
phase and every sequence of them commute with exchanging the sides. The phase is no side's:
a play leaves it, `phase_end` writes it, and neither reads it. -/
theorem sides_alike (st : State) (turn : st.turn = 0 ∨ st.turn = 1) (hand : Hand) (rng : ℕ → ℕ)
    (t t' : List Event) :
    (∀ x idx, (handlePlayCard st.swap hand x.other idx).2 = (handlePlayCard st hand x idx).2 ∧
      SameButText (handlePlayCard st.swap hand x.other idx).1
        (handlePlayCard st hand x idx).1.swap) ∧
    (SameButText (phaseEnd ⟨st.swap, hand, rng, t'⟩).st (phaseEnd ⟨st, hand, rng, t⟩).st.swap ∧
      (phaseEnd ⟨st.swap, hand, rng, t'⟩).hand = (phaseEnd ⟨st, hand, rng, t⟩).hand) ∧
    ∀ ms, (runMoves ⟨st.swap, hand, rng, t'⟩ (ms.map Move.swap)).2 =
        (runMoves ⟨st, hand, rng, t⟩ ms).2 ∧
      SameButText (runMoves ⟨st.swap, hand, rng, t'⟩ (ms.map Move.swap)).1.st
        (runMoves ⟨st, hand, rng, t⟩ ms).1.st.swap ∧
      (runMoves ⟨st.swap, hand, rng, t'⟩ (ms.map Move.swap)).1.hand =
        (runMoves ⟨st, hand, rng, t⟩ ms).1.hand := by
  have hm : MatchMirror ⟨st, hand, rng, t⟩ ⟨st.swap, hand, rng, t'⟩ := ⟨mirror_swap st, rfl, rfl⟩
  refine ⟨fun x idx => ?_, ?_, fun ms => ?_⟩
  · obtain ⟨hrc, hst⟩ := (mirror_swap st).handlePlayCard hand x idx
    exact ⟨hrc, hst.same⟩
  · have hend := (hm.phaseEnd turn).1
    exact ⟨hend.st.same, hend.hand⟩
  · obtain ⟨hcodes, hend⟩ := runMoves_mirror hm turn ms
    exact ⟨hcodes, hend.st.same, hend.hand⟩

/-- An attack and the end of the phase, for either side. -/
theorem sides_alike_attack :
    (runMoves ⟨(State.zero.update fun c => { c with aiHp := 3, pHp := 30, mana := 3 }).swap,
      dealHand (fun k => k), fun k => k, []⟩ [.play .ai 0, .phaseEnd]).2 = [some 0, none] := by
  have h := (sides_alike (State.zero.update fun c => { c with aiHp := 3, pHp := 30, mana := 3 })
    (Or.inl rfl) (dealHand fun k => k) (fun k => k) [] []).2.2 [.play .player 0, .phaseEnd]
  exact h.1.trans (by decide +kernel)

end MiniTcg.Game
