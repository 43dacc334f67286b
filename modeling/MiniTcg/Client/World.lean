import MiniTcg.Client.Octets
import MiniTcg.Lib.Share
import MiniTcg.Server.Isolation

/-!
# Everybody at once

One server and any number of clients: the console client, the two bench clients and the
GUI, each over its own connection with its own worker, all workers on one store. The
bytes of every connection are split and delayed at will.
-/
namespace MiniTcg.Client

open MiniTcg.Game MiniTcg.Ipc MiniTcg.Wire MiniTcg.Server

/-! ### The clients there are -/

inductive Kind
  | console
  | bench (idx : ℕ) (rounds : ℤ)
  | gui

abbrev Kind.State : Kind → Type
  | .console => Console
  | .bench _ _ => Bench
  | .gui => Gui

abbrev Kind.Input : Kind → Type
  | .console => ℤ
  | .bench _ _ => Empty
  | .gui => GuiInput

abbrev Kind.program : (k : Kind) → Program k.State k.Input
  | .console => Client.console
  | .bench _ _ => Client.bench
  | .gui => Client.gui

def Kind.reader : (k : Kind) → Reader k.program
  | .console => consoleReader
  | .bench _ _ => benchReader
  | .gui => guiReader

def Kind.start : (k : Kind) → k.State
  | .console => Console.start
  | .bench idx rounds => Bench.start idx rounds
  | .gui => Gui.start

/-! ### A connection as a part of the system -/

section Calls
variable {γ κ : Type} {P : Program γ κ}

/-- The calls of the store in a move: the pending call of the worker, or the call of
another. -/
def Octets.calls (s : Octets γ) : OctetMove κ → List Call
  | .act (.serve env) _ => (s.worker.call? env).toList
  | .act (.other c) _ => [c]
  | _ => []

/-- What the worker does in a move: it has a packet or learns that there is none, or makes
its pending call. -/
def Octets.does? (P : Program γ κ) (tls : Bool) (i : ℕ) (s : Octets γ) : OctetMove κ → Option Act
  | .act (.serve env) chunks =>
    if s.worker.pc.listens then
      match s.up.recv tls chunks 1024 with
      | some (r, _) => some (.recv i r)
      | none => if P.closed s.client ∧ s.up.coming = [] then some (.recv i none) else none
    else some (.ipc i env)
  | _ => none

theorem listens_call {w : Worker} (h : w.pc.listens = true) (env : AllocEnv) : w.call? env = none := by
  rw [Worker.call?]
  cases hpc : w.pc with
  | handshake => rfl
  | recv => rfl
  | closed => rfl
  | alloc base =>
    rw [hpc] at h
    cases h
  | load sid =>
    rw [hpc] at h
    cases h
  | save a base =>
    rw [hpc] at h
    cases h
  | touch p =>
    rw [hpc] at h
    cases h

end Calls

def callStore (s : Store) (c : Call) : Store := (s.call c).1

theorem octets_calls {γ κ : Type} {P : Program γ κ} (R : Reader P) (tls : Bool) (s : Octets γ)
    (m : OctetMove κ) : (s.step R tls m).store = (s.calls m).foldl callStore s.store := by
  cases m with
  | arriveUp n => rfl
  | arriveDown n => rfl
  | act a chunks =>
    cases a with
    | input k => rfl
    | other c => rfl
    | lost =>
      simp only [Octets.step]
      split <;> rfl
    | take =>
      simp only [Octets.step]
      split
      · split <;> rfl
      · rfl
    | serve env =>
      show _ = (s.worker.call? env).toList.foldl callStore s.store
      by_cases hl : s.worker.pc.listens = true
      · rw [listens_call hl env]
        simp only [Octets.step, if_pos hl]
        split
        · rfl
        · split <;> rfl
      · simp only [Octets.step, if_neg hl]
        show (s.worker.onIpc s.store env).2 = _
        rw [onIpc_store]
        cases s.worker.call? env <;> rfl

/-- The connection of a client, as a machine on the store of the server. -/
def connection (tls : Bool) (k : Kind) :
    Share.Part callStore (Octets k.State) (OctetMove k.Input) where
  step s m := s.step k.reader tls m
  store s := s.store
  put s store := { s with store := store }
  foreign c := .act (.other c) fun _ => 0
  put_store _ := rfl
  store_put _ _ := rfl
  put_put _ _ _ := rfl
  foreign_step _ _ := rfl
  calls := Octets.calls
  calls_store s m := octets_calls k.reader tls s m

/-! ### The system -/

section World
variable {n : ℕ} (kinds : Fin n → Kind) (tls : Bool)

abbrev World := Share.System Store fun i => Octets (kinds i).State

abbrev WorldMove := Σ i, OctetMove (kinds i).Input

variable {kinds}

def World.step (w : World kinds) (m : WorldMove kinds) : World kinds :=
  Share.System.step (fun i => connection tls (kinds i)) w m

/-- The connection of client `i`, with the store as it is now. -/
def World.view (w : World kinds) (i : Fin n) : Octets (kinds i).State :=
  { w.parts i with store := w.store }

variable (kinds) in
/-- Every client has sent its login. -/
def World.start (store : Store) (rngs : Fin n → ℕ → ℕ) : World kinds :=
  ⟨store, fun i => Octets.start store (rngs i) (kinds i).start⟩

/-- The moves on packets that client `i`, its worker and the calls of others make. -/
def World.made (w : World kinds) (i : Fin n) (moves : List (WorldMove kinds)) :
    List (LinkMove (kinds i).Input) :=
  (w.view i).made (kinds i).reader tls (w.seen (fun i => connection tls (kinds i)) i moves)

variable {w : World kinds}

/-- The workers and their store. -/
def World.fleet (w : World kinds) : Fleet := ⟨w.store, List.ofFn fun i => (w.parts i).worker, []⟩

/-- The act of the fleet that a move is. -/
def World.does? (w : World kinds) (m : WorldMove kinds) : Option Act :=
  (w.view m.1).does? (kinds m.1).program tls m.1 m.2

/-- The acts of the fleet in a run. -/
def World.acts (w : World kinds) : List (WorldMove kinds) → List Act
  | [] => []
  | m :: moves => (w.does? tls m).toList ++ (w.step tls m).acts moves

/-- No process outside the system calls the store. -/
def Inside (m : WorldMove kinds) : Prop := ∀ c chunks, m.2 ≠ .act (.other c) chunks

/-- No other worker is given the id of the worker of client `i` or asks for it, and the id
it is given is no other worker's. -/
def World.Alone (i : Fin n) (w : World kinds) (m : WorldMove kinds) : Prop :=
  match m.2 with
  | .act (.serve env) _ => Server.Alone i w.fleet (.ipc m.1 env)
  | .act (.other _) _ => False
  | _ => True

instance (i : Fin n) (w : World kinds) (m : WorldMove kinds) : Decidable (World.Alone i w m) :=
  match h : m.2 with
  | .act (.serve env) _ =>
    decidable_of_iff (Server.Alone i w.fleet (.ipc m.1 env)) (by rw [World.Alone, h])
  | .act (.other _) _ => isFalse (by rw [World.Alone, h]; exact id)
  | .act (.input _) _ => isTrue (by rw [World.Alone, h]; trivial)
  | .act .take _ => isTrue (by rw [World.Alone, h]; trivial)
  | .act .lost _ => isTrue (by rw [World.Alone, h]; trivial)
  | .arriveUp _ => isTrue (by rw [World.Alone, h]; trivial)
  | .arriveDown _ => isTrue (by rw [World.Alone, h]; trivial)

section Private
variable {rng : ℕ → ℕ} {i : ℕ}

end Private

end World

end MiniTcg.Client
