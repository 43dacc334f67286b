import MiniTcg.Game.Step
import MiniTcg.Wire.Packet

/-!
# The game a list of packets plays

`onPacket` is the effect of one decoded packet on a match, without connection,
store or log; `playout` folds it over the packets of a session from the login
on. It is the reference the server's workers are compared with: it knows nothing
of saves, disconnects and resumes.
-/
namespace MiniTcg.Game

open MiniTcg.Wire

/-- The AI's turn is due: `st.turn == 1 && !st.game_over`. -/
def Core.aiDue (c : Core) : Prop := c.turn = 1 ∧ c.gameOver = 0

instance (c : Core) : Decidable c.aiDue := inferInstanceAs (Decidable (_ ∧ _))

/-- Let the AI move if it is due. -/
def settle (g : Match) : Match := if g.st.aiDue then processAiTurn g else g

/-- The end of the player's turn with the AI's whole turn after it. -/
def fullTurn (g : Match) : Match := settle (phaseEnd g)

def onPacket (g : Match) (p : Packet) : Match :=
  if p.op = opPing ∨ g.st.gameOver ≠ 0 ∨ g.st.turn ≠ 0 then g
  else if p.op = opPlayCard then
    match p.payload with
    | [idx] => if g.st.phase = .main then playerPlay g idx else g
    | _ => g
  else if p.op = opEndTurn then fullTurn g
  else g

/-- The match a worker starts from. -/
def origin (rng : ℕ → ℕ) : Match := ⟨State.zero, Hand.zero, rng, []⟩

def playout (rng : ℕ → ℕ) (ps : List Packet) : Match := ps.foldl onPacket (loginGame (origin rng))

theorem playout_append (rng : ℕ → ℕ) (ps : List Packet) (p : Packet) :
    playout rng (ps ++ [p]) = onPacket (playout rng ps) p := by
  unfold playout
  rw [List.foldl_append]
  rfl

/-! ### Matches that differ in the log only -/

structure Match.Same (g g' : Match) : Prop where
  view : g.view = g'.view
  rng : g.rng = g'.rng

section Same
variable {g g' : Match}

theorem Match.Same.refl (g : Match) : g.Same g := ⟨rfl, rfl⟩

theorem Match.Same.symm (h : g.Same g') : g'.Same g := ⟨h.view.symm, h.rng.symm⟩

theorem Match.Same.trans {g'' : Match} (h : g.Same g') (h' : g'.Same g'') : g.Same g'' :=
  ⟨h.view.trans h'.view, h.rng.trans h'.rng⟩

theorem Match.Same.core (h : g.Same g') : g.st.toCore = g'.st.toCore := congrArg View.core h.view
theorem Match.Same.hand (h : g.Same g') : g.hand = g'.hand := congrArg View.hand h.view
theorem Match.Same.trace (h : g.Same g') : g.trace = g'.trace := congrArg View.trace h.view

theorem Match.same_of {g g' : Match} (hc : g.st.toCore = g'.st.toCore) (hh : g.hand = g'.hand)
    (ht : g.trace = g'.trace) (hr : g.rng = g'.rng) : g.Same g' :=
  ⟨by simp only [Match.view, hc, hh, ht], hr⟩

theorem handlePlayCard_congr {st st' : State} (h : st.toCore = st'.toCore) (hand : Hand)
    (x : Side) (idx : UInt8) :
    (handlePlayCard st hand x idx).1.toCore = (handlePlayCard st' hand x idx).1.toCore ∧
      (handlePlayCard st hand x idx).2 = (handlePlayCard st' hand x idx).2 := by
  cases hp : playable st.toCore hand idx with
  | none =>
    rw [handlePlayCard_refused x hp, handlePlayCard_refused x (h ▸ hp)]
    exact ⟨h, rfl⟩
  | some card =>
    obtain ⟨h1, h2⟩ := handlePlayCard_ok x hp
    obtain ⟨h1', h2'⟩ := handlePlayCard_ok x (h ▸ hp)
    rw [h1, h2, h1', h2', h]
    exact ⟨rfl, rfl⟩

theorem playerPlay_same (h : g.Same g') (idx : UInt8) :
    (playerPlay g idx).Same (playerPlay g' idx) := by
  obtain ⟨hc, hrc⟩ := handlePlayCard_congr h.core g'.hand .player idx
  refine Match.same_of ?_ h.hand ?_ h.rng
  · simp only [playerPlay, h.hand, hc]
  · simp only [playerPlay, h.hand, h.core, h.trace, hc, hrc]

theorem aiPlay_same (h : g.Same g') (i : ℕ) : (aiPlay g i).Same (aiPlay g' i) := by
  obtain ⟨hc, hrc⟩ := handlePlayCard_congr h.core g'.hand .ai (UInt8.ofNat i)
  refine Match.same_of ?_ ?_ ?_ h.rng
  · simp only [aiPlay, h.hand, hc]
  · simp only [aiPlay, h.hand]
  · simp only [aiPlay, h.hand, h.core, h.trace, hc, hrc]

theorem aiLoopUpTo_same (k : ℕ) (h : g.Same g') : (aiLoopUpTo k g).Same (aiLoopUpTo k g') := by
  induction k generalizing g g' with
  | zero => exact h
  | succ k ih =>
    rw [aiLoopUpTo, aiLoopUpTo, ← h.core, ← h.hand]
    split
    · cases aiBest g.st.toCore g.hand with
      | none => exact h
      | some i => exact ih (aiPlay_same h i)
    · exact h

theorem phaseTick_same (h : g.Same g') : (phaseTick g).Same (phaseTick g') := by
  refine ⟨?_, h.rng⟩
  rw [phaseTick_view, phaseTick_view, h.view, h.hand, h.trace]

theorem enterTurn_same (h : g.Same g') (side : UInt8) :
    (enterTurn g side).Same (enterTurn g' side) := by
  refine ⟨?_, ?_⟩
  · rw [enterTurn_view, enterTurn_view, h.view, h.rng, h.trace]
  · change (fun k => g.rng (k + 3)) = (fun k => g'.rng (k + 3))
    rw [h.rng]

theorem phaseEnd_same (h : g.Same g') : (phaseEnd g).Same (phaseEnd g') := by
  have ht := phaseTick_same h
  unfold phaseEnd
  simp only [ht.core]
  split
  · exact ht
  · exact enterTurn_same ht _

theorem processAiTurn_same (h : g.Same g') : (processAiTurn g).Same (processAiTurn g') := by
  have hl : (aiLoop g).Same (aiLoop g') := aiLoopUpTo_same 8 h
  unfold processAiTurn
  simp only [hl.core]
  split
  · exact phaseEnd_same hl
  · exact hl

theorem settle_same (h : g.Same g') : (settle g).Same (settle g') := by
  unfold settle
  rw [h.core]
  split
  · exact processAiTurn_same h
  · exact h

theorem fullTurn_same (h : g.Same g') : (fullTurn g).Same (fullTurn g') :=
  settle_same (phaseEnd_same h)

theorem onPacket_same (h : g.Same g') (p : Packet) : (onPacket g p).Same (onPacket g' p) := by
  unfold onPacket
  rw [h.core]
  split
  · exact h
  · split
    · split
      · split
        · exact playerPlay_same h _
        · exact h
      · exact h
    · split
      · exact fullTurn_same h
      · exact h

end Same

/-! ### Between packets -/

/-- The server waits for the player: the game is over or it is the player's turn. -/
def Idle (c : Core) : Prop := c.gameOver ≠ 0 ∨ (c.turn = 0 ∧ c.phase = .main)

theorem Idle.not_due {c : Core} (h : Idle c) : ¬ c.aiDue := by
  rintro ⟨ht, hl⟩
  rcases h with h | h
  · exact h hl
  · rw [h.1] at ht
    exact absurd ht (by decide)

theorem Idle.settle {g : Match} (h : Idle g.st.toCore) : settle g = g := if_neg h.not_due

theorem fullTurn_steps {g : Match} (live : g.st.gameOver = 0) (main : g.st.phase = .main)
    (turn : g.st.turn = 0) :
    Steps g.view (fullTurn g).view ∧ Idle (fullTurn g).st.toCore := by
  have hs := phaseEnd_steps (x := .player) live main turn
  unfold fullTurn settle
  rcases phaseEnd_result g with hover | ⟨ht, hm, hl⟩
  · rw [if_neg (fun hd => hover hd.2)]
    exact ⟨hs, Or.inl hover⟩
  · rw [turn, if_pos rfl] at ht
    rw [if_pos ⟨ht, hl⟩]
    refine ⟨hs.trans (processAiTurn_steps hm ht), ?_⟩
    rcases processAiTurn_result ht with hover | ⟨ht', hm', _⟩
    · exact Or.inl hover
    · exact Or.inr ⟨ht', hm'⟩

theorem playerPlay_idle {g : Match} (idx : UInt8) (main : g.st.phase = .main)
    (turn : g.st.turn = 0) : Idle (playerPlay g idx).st.toCore := by
  refine Or.inr ?_
  cases h : playable g.st.toCore g.hand idx with
  | none =>
    simp only [playerPlay, handlePlayCard_refused .player h]
    exact ⟨turn, main⟩
  | some card =>
    simp only [playerPlay, (handlePlayCard_ok .player h).2, Core.played_turn, Core.played_phase]
    exact ⟨turn, main⟩

/-- A packet that meets an idle match performs steps of it and leaves it idle. -/
theorem onPacket_steps {g : Match} (hi : Idle g.st.toCore) (p : Packet) :
    Steps g.view (onPacket g p).view ∧ Idle (onPacket g p).st.toCore := by
  unfold onPacket
  split
  · exact ⟨.refl, hi⟩
  · rename_i hg
    obtain ⟨_, hlive, hturn⟩ : p.op ≠ opPing ∧ g.st.gameOver = 0 ∧ g.st.turn = 0 := by
      simpa [not_or] using hg
    have hmain : g.st.phase = .main := by
      rcases hi with h | h
      · exact absurd hlive h
      · exact h.2
    simp only [hmain, if_true]
    split
    · split
      · exact ⟨.single (playerPlay_step _ hlive hmain hturn), playerPlay_idle _ hmain hturn⟩
      · exact ⟨.refl, hi⟩
    · split
      · exact fullTurn_steps hlive hmain hturn
      · exact ⟨.refl, hi⟩

theorem playout_reachable (rng : ℕ → ℕ) (ps : List Packet) :
    Reachable (playout rng ps).view ∧ Idle (playout rng ps).st.toCore := by
  induction ps using List.reverseRecOn with
  | nil =>
    have hstart : (playout rng []).view = View.start (dealHand rng) := loginGame_view rng
    refine ⟨⟨dealHand rng, ⟨rng, rfl⟩, ?_⟩, Or.inr ⟨rfl, rfl⟩⟩
    exact hstart ▸ Relation.ReflTransGen.refl
  | append_singleton ps p ih =>
    rw [playout_append]
    obtain ⟨hs, hi⟩ := onPacket_steps ih.2 p
    exact ⟨ih.1.steps hs, hi⟩

theorem onPacket_play {g : Match} (hi : Idle g.st.toCore) (live : g.st.gameOver = 0)
    (idx : UInt8) : onPacket g ⟨opPlayCard, [idx]⟩ = playerPlay g idx := by
  obtain ⟨hturn, hmain⟩ : g.st.turn = 0 ∧ g.st.phase = .main := hi.resolve_left fun h => h live
  have hop : ¬ opPlayCard = opPing := by decide
  simp [onPacket, hop, live, hturn, hmain]

theorem onPacket_end {g : Match} (live : g.st.gameOver = 0) (turn : g.st.turn = 0)
    (payload : List UInt8) : onPacket g ⟨opEndTurn, payload⟩ = fullTurn g := by
  have hop : ¬ opEndTurn = opPing ∧ ¬ opEndTurn = opPlayCard := by decide
  simp [onPacket, hop, live, turn]

/-- The history only grows. -/
theorem Steps.trace_suffix {v w : View} (h : Steps v w) : v.trace <:+ w.trace := by
  induction h with
  | refl => exact List.suffix_refl _
  | tail _ hstep ih =>
    refine ih.trans ?_
    cases hstep <;> exact List.suffix_cons _ _

/-- Once the game is over no packet changes anything. -/
theorem onPacket_over {g : Match} (h : g.st.gameOver ≠ 0) (p : Packet) : onPacket g p = g := by
  unfold onPacket
  rw [if_pos (Or.inr (Or.inl h))]

theorem playout_over {rng : ℕ → ℕ} {ps : List Packet} (h : (playout rng ps).st.gameOver ≠ 0)
    (qs : List Packet) : playout rng (ps ++ qs) = playout rng ps := by
  induction qs using List.reverseRecOn with
  | nil => rw [List.append_nil]
  | append_singleton qs q ih =>
    rw [← List.append_assoc, playout_append, ih]
    exact onPacket_over h q

/-! ### The write index of the log -/

def State.LogOk (st : State) : Prop := st.logHead.toNat < 6

section Log
variable {g : Match} {st : State}

theorem checkGameOver_log (h : st.LogOk) : (checkGameOver st).LogOk := by
  unfold checkGameOver
  split
  · exact h
  · split
    · exact pushLog_logHead_lt _ _
    · exact h

theorem tickSide_log (h : st.LogOk) (x : Side) (msg : String) : (tickSide st x msg).LogOk := by
  unfold tickSide
  split
  · exact pushLog_logHead_lt _ _
  · exact h

theorem handlePlayCard_log (h : st.LogOk) (hand : Hand) (x : Side) (idx : UInt8) :
    (handlePlayCard st hand x idx).1.LogOk := by
  cases hp : playable st.toCore hand idx with
  | none =>
    rw [handlePlayCard_refused x hp]
    exact h
  | some card =>
    have hm := kind_of_mem (playable_mem hp)
    have hz := playable_card_ne_zero hp
    obtain ⟨hi, hk, hc⟩ := playable_iff.mp hp
    have hn : ¬ hand.n ≤ idx := UInt8.not_le.mpr hi
    have hc' : ¬ st.mana < card.cost := UInt8.not_lt.mpr hc
    simp only [handlePlayCard, hn, hz, hk, hc', playEffect, hm, ↓reduceIte]
    exact checkGameOver_log (pushLog_logHead_lt _ _)

theorem phaseTick_log (g : Match) : (phaseTick g).st.LogOk := by
  apply checkGameOver_log
  apply tickSide_log
  apply tickSide_log
  exact pushLog_logHead_lt _ _

theorem enterTurn_log (g : Match) (side : UInt8) : (enterTurn g side).st.LogOk := by
  simp only [enterTurn, phaseDraw, State.LogOk, State.update_logHead]
  exact pushLog_logHead_lt _ _

theorem phaseEnd_log (g : Match) : (phaseEnd g).st.LogOk := by
  unfold phaseEnd
  simp only
  split
  · exact phaseTick_log g
  · exact enterTurn_log _ _

theorem aiLoopUpTo_log (k : ℕ) (h : g.st.LogOk) : (aiLoopUpTo k g).st.LogOk := by
  induction k generalizing g with
  | zero => exact h
  | succ k ih =>
    rw [aiLoopUpTo]
    split
    · cases aiBest g.st.toCore g.hand with
      | none => exact h
      | some i => exact ih (handlePlayCard_log h _ _ _)
    · exact h

theorem processAiTurn_log (h : g.st.LogOk) : (processAiTurn g).st.LogOk := by
  unfold processAiTurn
  simp only
  split
  · exact phaseEnd_log _
  · exact aiLoopUpTo_log 8 h

end Log

end MiniTcg.Game
