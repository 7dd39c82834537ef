import Wallet.Key.Generator
import Wallet.Proofs.Key.Form
import Wallet.Proofs.Tape

/-! The calls of a generator on one tape. Only a fresh pair takes bytes from it: blocks up to the first that is a key,
which are no more than the unread bytes fill, and one more. `Step` says so of one call at a place of the source, and
every call that is performed is such a step (`step_perform`), so that a run of calls is a chain of steps from the
beginning of the source (`run_draws_first_keys`). -/

namespace Wallet.KeyGenerator

/-- The calls of a generator. -/
inductive Call
  | generate
  | derive (key : PrivateKey)
  | address (key : PublicKey)

/-- What a call returns. -/
inductive Reply
  | pair (pair : KeyPair)
  | publicKey (key : PublicKey)
  | address (a : Address)

def Call.perform : Call → KeyGenerator → Reply × KeyGenerator
  | .generate, g => (.pair g.generate.value.1, g.generate.value.2)
  | .derive key, g => (.publicKey (g.derivePublicKey key), g)
  | .address key, g => (.address (g.address key), g)

/-- Calls made one after the other, each with its reply, and the generator that they leave. -/
def run : List Call → KeyGenerator → List (Call × Reply) × KeyGenerator
  | [], g => ([], g)
  | call :: calls, g =>
    let (reply, g) := call.perform g
    let (log, g) := run calls g
    ((call, reply) :: log, g)

/-- A public key is the compressed form of the generator added up as often as a private key says. -/
structure IsDerived (key : PrivateKey) (publicKey : PublicKey) : Prop where
  form : publicKey.form = .compressed
  point : publicKey.point = Curve.Point.times key.scalar.val .generator

/-- A call at a place of the source, with its reply and the place behind what it has drawn. -/
inductive Step (source : Bytes) (hash : DomainHash) : Nat → Call × Reply → Nat → Prop
  | generate {place : Nat} {pair : KeyPair} (rejected : Nat)
      (hrejected : ∀ j < rejected, ¬IsKey (segment source (place + 32 * j) 32))
      (hkey : IsKey (segment source (place + 32 * rejected) 32))
      (hfew : rejected ≤ (source.length - place + 31) / 32)
      (hends : ((Tape.ofBytes source).advance place).drawWithin ((source.length - place + 31) / 32 + 1) =
        some (pair.privateKey, (Tape.ofBytes source).advance (place + 32 * (rejected + 1))))
      (hprivate : pair.privateKey.scalar.val = (segment source (place + 32 * rejected) 32).toNat)
      (hpublic : ∀ g : KeyGenerator, pair.publicKey = g.derivePublicKey pair.privateKey)
      (hderived : IsDerived pair.privateKey pair.publicKey) :
      Step source hash place (.generate, .pair pair) (place + 32 * (rejected + 1))
  | derive {place : Nat} {key : PrivateKey} {publicKey : PublicKey} (hderived : IsDerived key publicKey) :
      Step source hash place (.derive key, .publicKey publicKey) place
  | address {place : Nat} {key : PublicKey} {a : Address}
      (hforms : ∀ other : PublicKey, other.point = key.point → Address.ofPublicKey other hash = a) :
      Step source hash place (.address key, .address a) place

/-- Each step starts where the one before it has stopped. -/
inductive Run (source : Bytes) (hash : DomainHash) : Nat → List (Call × Reply) → Nat → Prop
  | nil {place : Nat} : Run source hash place [] place
  | cons {start place stop : Nat} {entry : Call × Reply} {log : List (Call × Reply)}
      (hstep : Step source hash start entry place) (hrest : Run source hash place log stop) :
      Run source hash start (entry :: log) stop

variable {source : Bytes} {g : KeyGenerator}

theorem isDerived_ofPrivate (key : PrivateKey) : IsDerived key (KeyPair.ofPrivate key).publicKey :=
  ⟨rfl, key.publicPoint_eq_times⟩

/-! One call -/

theorem step_generate (h : g.tape.Reads source) :
    Step source g.hash g.tape.drawn (.generate, .pair g.generate.value.1) g.generate.value.2.tape.drawn ∧
      g.generate.value.2.tape.Reads source := by
  obtain ⟨rejected, hrejected, hkey, hprivate, hdrawn, hreads⟩ := h.drawKey_eq
  have hends := g.tape.drawWithin_blocks
  have hle := g.tape.drawn_drawKey_le
  rw [h.blocks_eq] at hends hle
  have hstart : g.tape = (Tape.ofBytes source).advance g.tape.drawn := h.eq_advance
  have hstop : g.tape.drawKey.2 = (Tape.ofBytes source).advance (g.tape.drawn + 32 * (rejected + 1)) := by
    rw [← hdrawn]
    exact hreads.eq_advance
  have hpair : g.generate.value = (KeyPair.ofPrivate g.tape.drawKey.1, { g with tape := g.tape.drawKey.2 }) := rfl
  rw [hpair]
  refine ⟨?_, hreads⟩
  dsimp only
  rw [hdrawn]
  refine .generate rejected hrejected hkey (by omega) ?_ hprivate (fun _ => rfl) (isDerived_ofPrivate _)
  rw [← hstart, ← hstop]
  exact hends

theorem step_perform (h : g.tape.Reads source) (call : Call) :
    Step source g.hash g.tape.drawn (call, (call.perform g).1) (call.perform g).2.tape.drawn ∧
      (call.perform g).2.tape.Reads source ∧ (call.perform g).2.hash = g.hash := by
  cases call with
  | generate =>
    obtain ⟨hstep, hreads⟩ := step_generate h
    exact ⟨hstep, hreads, rfl⟩
  | derive key => exact ⟨.derive (isDerived_ofPrivate key), h, rfl⟩
  | address key => exact ⟨.address fun other hpoint => Address.ofPublicKey_congr hpoint g.hash, h, rfl⟩

/-! A run of calls -/

theorem calls_run (calls : List Call) (g : KeyGenerator) : (run calls g).1.map Prod.fst = calls := by
  induction calls generalizing g with
  | nil => rfl
  | cons call calls ih => exact congrArg (call :: ·) (ih _)

theorem run_of_reads (calls : List Call) (h : g.tape.Reads source) :
    Run source g.hash g.tape.drawn (run calls g).1 (run calls g).2.tape.drawn := by
  induction calls generalizing g with
  | nil => exact .nil
  | cons call calls ih =>
    obtain ⟨hstep, hreads, hhash⟩ := step_perform h call
    have hrest := ih hreads
    rw [hhash] at hrest
    exact .cons hstep hrest

/-- Over any run of calls on one tape, a fresh pair takes the blocks of 32 bytes up to the first that is a key, which
is its private key: at most as many as the unread bytes fill, and one more. Its public key is the one that is derived
from the private key, in compressed form. To derive keys and addresses takes nothing, and the address of a key is that
of all other forms of its point. -/
theorem run_draws_first_keys (source : Bytes) (hash : DomainHash) (calls : List Call) :
    let (log, g) := run calls ⟨.ofBytes source, hash⟩
    log.map Prod.fst = calls ∧ Run source hash 0 log g.tape.drawn := by
  have hreads : (KeyGenerator.mk (.ofBytes source) hash).tape.Reads source := Tape.reads_ofBytes source
  exact ⟨calls_run calls _, run_of_reads calls hreads⟩

end Wallet.KeyGenerator
