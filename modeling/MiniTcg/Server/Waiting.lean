import MiniTcg.Server.Serve

/-!
# What holds whenever a session waits for a packet

The states in the middle of a packet (`turn = 1`, `PHASE_DRAW`, `PHASE_END`) are
not covered: the statements are about the main-loop `proto_recv` of a
single-worker run. They are read off the playout the session follows.
-/
namespace MiniTcg.Server

open MiniTcg.Game MiniTcg.Ipc MiniTcg.Wire

section Waiting
variable {rng : ℕ → ℕ} {ms : List Move}

theorem Single.waiting (h : Single rng ms) (hpc : (runSession rng ms).worker.pc = .recv) :
    Reachable (runSession rng ms).worker.game.view ∧
      Idle (runSession rng ms).worker.game.st.toCore ∧ (runSession rng ms).worker.game.st.LogOk := by
  have hs := h.follows.synced hpc
  exact ⟨hs.reachable, hs.idle, hs.log⟩

/-- The bounds the server relies on, the turn, and the mana account of the
running turn. -/
theorem waiting_sane (h : Single rng ms) (hpc : (runSession rng ms).worker.pc = .recv) :
    let g := (runSession rng ms).worker.game
    g.st.maxMana = 3 ∧ g.st.mana ≤ 3 ∧ g.st.logHead < 6 ∧ g.hand.n = 3 ∧
      (∀ i, i < 3 → g.hand.card i = 0 ∨ (getCardDef (g.hand.card i)).isSome) ∧
      (∀ i, 3 ≤ i → i < 8 → g.hand.card i = 0) ∧
      (g.st.gameOver = 0 → g.st.turn = 0 ∧ g.st.phase = .main ∧ g.st.winner = 0) ∧
      (∀ idx : UInt8, ¬ g.hand.n ≤ idx → idx.toNat < 8) ∧
      spent g.trace + g.st.mana.toNat = 3 := by
  obtain ⟨hreach, hidle, hlog⟩ := h.waiting hpc
  intro g
  have hsane : Sane g.view := hreach.sane
  have hsettled : Settled g.st.toCore := hreach.settled
  have hn : g.hand.n = 3 := hsane.hand.size
  have hacc : spent g.trace + g.st.mana.toNat = 3 := hsane.account
  refine ⟨hsane.maxMana, ?_, ?_, hn, hsane.hand.known, fun i hi _ => hsane.hand.rest i hi, ?_, ?_,
    hacc⟩
  · rw [UInt8.le_iff_toNat_le]
    change g.st.mana.toNat ≤ 3
    omega
  · rw [UInt8.lt_iff_toNat_lt]
    exact hlog
  · intro hlive
    rcases hidle with hover | ⟨hturn, hmain⟩
    · exact absurd hlive hover
    · exact ⟨hturn, hmain, hsettled.none hlive⟩
  · intro idx hidx
    rw [hn, UInt8.not_le, UInt8.lt_iff_toNat_lt] at hidx
    have h3 : (3 : UInt8).toNat = 3 := rfl
    omega

theorem waiting_sane_served :
    Single (fun _ => 0) (serve [⟨opPlayCard, [0]⟩]) ∧
      spent (runSession (fun _ => 0) (serve [⟨opPlayCard, [0]⟩])).worker.game.trace +
        (runSession (fun _ => 0) (serve [⟨opPlayCard, [0]⟩])).worker.game.st.mana.toNat = 3 := by
  obtain ⟨hs, hpc, _⟩ := serve_run (fun _ => 0) [⟨opPlayCard, [0]⟩]
  obtain ⟨_, _, _, _, _, _, _, _, hacc⟩ := waiting_sane hs hpc
  exact ⟨hs, hacc⟩

/-! ### The end of the game -/

theorem io_step (s : Session) (m : Move) : s.worker.io <:+ (s.step m).worker.io := by
  cases m with
  | recv r => exact onRecv_io s.worker r
  | ipc env => exact onIpc_io s.worker s.store env
  | reconnect => exact List.suffix_refl _
  | other c => exact List.suffix_refl _

theorem received_run (s : Session) (ms : List Move) :
    received s.worker.io <+: received (ms.foldl Session.step s).worker.io := by
  apply received_mono
  refine Run.foldl_invariant (I := fun s' : Session => s.worker.io <:+ s'.worker.io) ?_ ms
    (List.suffix_refl _)
  intro s' m hs
  exact hs.trans (io_step s' m)

/-- A later waiting point of a finished game shows the same table, and nothing
was drawn, played or ticked in between. -/
theorem waiting_over {ms' : List Move} (h : Single rng (ms ++ ms'))
    (hpc : (runSession rng ms).worker.pc = .recv)
    (hover : (runSession rng ms).worker.game.st.gameOver ≠ 0)
    (hpc' : (runSession rng (ms ++ ms')).worker.pc = .recv) :
    (runSession rng (ms ++ ms')).worker.game.Same (runSession rng ms).worker.game := by
  have hs := (Single.follows (Run.along_append.mp h).1).synced hpc
  have hs' := h.follows.synced hpc'
  have hpre : received (runSession rng ms).worker.io <+:
      received (runSession rng (ms ++ ms')).worker.io := by
    unfold runSession
    rw [List.foldl_append]
    exact received_run _ ms'
  obtain ⟨qs, hqs⟩ := hpre
  have hover' : ((runSession rng ms).ref rng).st.gameOver ≠ 0 := by
    rw [← hs.same.core]
    exact hover
  have href : (runSession rng (ms ++ ms')).ref rng = (runSession rng ms).ref rng := by
    rw [Session.ref, ← hqs]
    exact playout_over hover' qs
  refine hs'.same.trans ?_
  rw [href]
  exact hs.same.symm

/-- `game_over` is set exactly when a side has no hit points left, the winner is
the one with more, and the match is frozen from then on. -/
theorem waiting_settled {ms' : List Move} (h : Single rng (ms ++ ms'))
    (hpc : (runSession rng ms).worker.pc = .recv) :
    let g := (runSession rng ms).worker.game
    let g' := (runSession rng (ms ++ ms')).worker.game
    (g.st.gameOver = 1 ↔ g.st.pHp.toInt ≤ 0 ∨ g.st.aiHp.toInt ≤ 0) ∧
      (g.st.gameOver = 0 ∨ g.st.gameOver = 1) ∧
      (g.st.gameOver = 1 →
        (g.st.aiHp.toInt < g.st.pHp.toInt → g.st.winner = 1) ∧
        (g.st.pHp.toInt < g.st.aiHp.toInt → g.st.winner = 2) ∧
        (g.st.pHp.toInt = g.st.aiHp.toInt → g.st.winner = 0)) ∧
      (g.st.gameOver = 1 → (runSession rng (ms ++ ms')).worker.pc = .recv →
        g'.st.toCore = g.st.toCore ∧ g'.hand = g.hand ∧ g'.trace = g.trace) := by
  intro g g'
  have hset : Settled g.st.toCore := (Single.waiting (Run.along_append.mp h).1 hpc).1.settled
  refine ⟨hset.ended, hset.flag, fun hover => ?_, fun hover hpc' => ?_⟩
  · have hw := hset.winner hover
    rw [hw]
    unfold Core.verdict
    refine ⟨fun hlt => if_pos hlt, fun hlt => ?_, fun heq => ?_⟩
    · rw [if_neg (by omega), if_pos hlt]
    · rw [if_neg (by omega), if_neg (by omega)]
  · have hne : g.st.gameOver ≠ 0 := by
      rw [hover]
      exact one_ne_zero8
    have hsame := waiting_over h hpc hne hpc'
    exact ⟨hsame.core, hsame.hand, hsame.trace⟩

end Waiting

/-- Four attacks of eight against four of the AI: the player wins the race. -/
def raceWon : List Packet :=
  [⟨opPlayCard, [0]⟩, ⟨opEndTurn, []⟩, ⟨opPlayCard, [0]⟩, ⟨opEndTurn, []⟩, ⟨opPlayCard, [1]⟩,
    ⟨opEndTurn, []⟩, ⟨opPlayCard, [2]⟩]

theorem waiting_settled_race :
    (runSession (fun _ => 2) (serve raceWon)).worker.game.st.gameOver = 1 ∧
      (runSession (fun _ => 2) (serve raceWon)).worker.game.st.winner = 1 ∧
      (runSession (fun _ => 2) (serve raceWon ++ servePacket ⟨opEndTurn, []⟩)).worker.game.st.toCore =
        (runSession (fun _ => 2) (serve raceWon)).worker.game.st.toCore := by
  obtain ⟨_, hpc, _⟩ := serve_run (fun _ => 2) raceWon
  obtain ⟨hs, hpc', _⟩ := serve_run (fun _ => 2) (raceWon ++ [⟨opEndTurn, []⟩])
  rw [serve_append] at hs hpc'
  obtain ⟨_, _, hwin, hfinal⟩ := waiting_settled hs hpc
  have hcore := (serve_game (fun _ => 2) raceWon).core
  have hover : (runSession (fun _ => 2) (serve raceWon)).worker.game.st.gameOver = 1 := by
    rw [hcore]
    decide +kernel
  have hhp : (runSession (fun _ => 2) (serve raceWon)).worker.game.st.aiHp.toInt <
      (runSession (fun _ => 2) (serve raceWon)).worker.game.st.pHp.toInt := by
    rw [hcore]
    decide +kernel
  exact ⟨hover, (hwin hover).1 hhp, (hfinal hover hpc').1⟩

end MiniTcg.Server
