import Wallet.Proofs.Seal
import Wallet.Proofs.Tape

/-! What the calls of a cipher take from its tape. Opening takes nothing, sealing takes a counter, and sealing
from a fresh key takes a counter and then blocks up to the first that is a key (`accounted_perform`). A call
starts where the one before it has stopped (`faithful_history`), so that no byte is in two counters or keys.
The blobs that are opened may be any, those that were sealed before among them. Main statement:
`draws_never_overlap`. -/

namespace Wallet.Seal

variable {source : Bytes} {tape : Tape}

/-- The calls of a cipher. -/
inductive Call
  | encrypt (sender : PrivateKey) (recipient : PublicKey) (plaintext : Bytes)
  | encryptEphemeral (recipient : PublicKey) (plaintext : Bytes)
  | decrypt (recipient : PrivateKey) (blob : Bytes)

/-- What a call returns, and the tape that it leaves to the next one. -/
def Call.perform : Call → Tape → Except SealError Bytes × Tape
  | .encrypt sender recipient plaintext, tape => Seal.encrypt sender recipient plaintext tape
  | .encryptEphemeral recipient plaintext, tape => Seal.encryptEphemeral recipient plaintext tape
  | .decrypt recipient blob, tape => ((Seal.decrypt recipient blob).result, tape)

/-- A call with its outcome and with how many bytes were drawn before and after it. -/
structure Entry where
  call : Call
  outcome : Except SealError Bytes
  start : Nat
  stop : Nat

def Call.entry (call : Call) (tape : Tape) : Entry :=
  ⟨call, (call.perform tape).1, tape.drawn, (call.perform tape).2.drawn⟩

/-- The entries of calls made one after the other. -/
def history : List Call → Tape → List Entry
  | [], _ => []
  | call :: calls, tape => call.entry tape :: history calls (call.perform tape).2

theorem calls_history (calls : List Call) (tape : Tape) : (history calls tape).map Entry.call = calls := by
  induction calls generalizing tape with
  | nil => rfl
  | cons call calls ih => rw [history, List.map_cons, ih, Call.entry]

/-! One call -/

/-- An outcome is the seal of a text, which bears the public key of the sender and the counter. -/
structure IsSeal (outcome : Except SealError Bytes) (sender : PrivateKey) (recipient : PublicKey)
    (iv plaintext : Bytes) : Prop where
  eq_create : outcome = create sender recipient iv plaintext
  bears : ∃ blob, outcome = .ok blob ∧
    blob.take 65 = (KeyPair.ofPrivate sender).publicKey.uncompressedBytes ∧ (blob.drop 65).take 16 = iv

theorem isSeal_create (sender : PrivateKey) (recipient : PublicKey) {iv : Bytes} (hiv : iv.length = ivSize)
    (plaintext : Bytes) : IsSeal (create sender recipient iv plaintext) sender recipient iv plaintext := by
  obtain ⟨ciphertext, -, -, hcreate⟩ := create_eq_ok sender recipient hiv plaintext
  have hcut := cut_append (Curve.Point.length_encode sender.publicPoint_ne_infinity .uncompressed) hiv ciphertext
    (length_tag (deriveKeys sender recipient) iv ciphertext)
  exact ⟨rfl, _, hcreate, congrArg Parts.embedded hcut, congrArg Parts.iv hcut⟩

/-- What an entry says of the source: which bytes the call has drawn, and what it has made of them. -/
inductive Accounted (source : Bytes) : Entry → Prop
  | encrypt {sender : PrivateKey} {recipient : PublicKey} {plaintext : Bytes} {outcome : Except SealError Bytes}
      {start : Nat} (hseal : IsSeal outcome sender recipient (segment source start 16) plaintext) :
      Accounted source ⟨.encrypt sender recipient plaintext, outcome, start, start + 16⟩
  | encryptEphemeral {recipient : PublicKey} {plaintext : Bytes} {outcome : Except SealError Bytes} {start : Nat}
      (rejected : Nat) (sender : PrivateKey)
      (hrejected : ∀ j < rejected, ¬IsKey (segment source (start + 16 + 32 * j) 32))
      (hkey : IsKey (segment source (start + 16 + 32 * rejected) 32))
      (hsender : sender.scalar.val = (segment source (start + 16 + 32 * rejected) 32).toNat)
      (hseal : IsSeal outcome sender recipient (segment source start 16) plaintext) :
      Accounted source ⟨.encryptEphemeral recipient plaintext, outcome, start, start + 16 + 32 * (rejected + 1)⟩
  | decrypt {recipient : PrivateKey} {blob : Bytes} {start : Nat} :
      Accounted source ⟨.decrypt recipient blob, (Seal.decrypt recipient blob).result, start, start⟩

theorem accounted_perform (h : tape.Reads source) (call : Call) :
    Accounted source (call.entry tape) ∧ (call.perform tape).2.Reads source := by
  have hiv : tape.take ivSize = segment source tape.drawn 16 := h.take_eq 16
  cases call with
  | encrypt sender recipient plaintext =>
    refine ⟨.encrypt ?_, h.advance ivSize⟩
    rw [← hiv]
    exact isSeal_create sender recipient (tape.length_take ivSize) plaintext
  | encryptEphemeral recipient plaintext =>
    obtain ⟨rejected, hrejected, hkey, hsender, hstop, hreads⟩ := (h.advance 16).drawKey_eq
    simp only [Tape.drawn_advance] at hrejected hkey hsender hstop
    have hseal := isSeal_create (tape.advance 16).drawKey.1 recipient (tape.length_take ivSize) plaintext
    rw [hiv] at hseal
    have hentry : (Call.encryptEphemeral recipient plaintext).entry tape =
        ⟨.encryptEphemeral recipient plaintext,
          create (tape.advance 16).drawKey.1 recipient (segment source tape.drawn 16) plaintext,
          tape.drawn, tape.drawn + 16 + 32 * (rejected + 1)⟩ := by
      rw [← hstop, ← hiv]
      rfl
    rw [hentry]
    exact ⟨.encryptEphemeral rejected _ hrejected hkey hsender hseal, hreads⟩
  | decrypt recipient blob => exact ⟨.decrypt, h⟩

/-! A run of calls -/

/-- Each call starts where the one before it has stopped, the first one at a given place. -/
def Faithful (source : Bytes) : Nat → List Entry → Prop
  | _, [] => True
  | place, e :: es => e.start = place ∧ Accounted source e ∧ Faithful source e.stop es

theorem faithful_history (calls : List Call) (h : tape.Reads source) :
    Faithful source tape.drawn (history calls tape) := by
  induction calls generalizing tape with
  | nil => trivial
  | cons call calls ih =>
    obtain ⟨haccounted, hrest⟩ := accounted_perform h call
    exact ⟨rfl, haccounted, ih hrest⟩

/-- A stretch of the source. -/
structure Stretch where
  start : Nat
  stop : Nat
  deriving DecidableEq, Repr

/-- The counter and the key that a call has drawn: a counter stands at the beginning and a key at the end. -/
def Entry.uses (e : Entry) : List Stretch :=
  match e.call with
  | .encrypt .. => [⟨e.start, e.start + 16⟩]
  | .encryptEphemeral .. => [⟨e.start, e.start + 16⟩, ⟨e.stop - 32, e.stop⟩]
  | .decrypt .. => []

/-- What a call has drawn lies between where it starts and where it stops, the counter before the key. -/
theorem Accounted.uses_within {e : Entry} (h : Accounted source e) :
    e.start ≤ e.stop ∧ (∀ u ∈ e.uses, e.start ≤ u.start ∧ u.stop ≤ e.stop) ∧
      e.uses.Pairwise fun a b => a.stop ≤ b.start := by
  cases h with
  | encrypt => simp [Entry.uses]
  | encryptEphemeral => simp [Entry.uses]; omega
  | decrypt => simp [Entry.uses]

theorem Faithful.of_mem {place : Nat} {es : List Entry} (h : Faithful source place es) :
    ∀ e ∈ es, Accounted source e ∧ place ≤ e.start := by
  induction es generalizing place with
  | nil => exact nofun
  | cons e es ih =>
    obtain ⟨rfl, haccounted, hrest⟩ := h
    intro e' he'
    rcases List.mem_cons.1 he' with rfl | he'
    · exact ⟨haccounted, Nat.le_refl _⟩
    · obtain ⟨haccounted', hle⟩ := ih hrest e' he'
      exact ⟨haccounted', haccounted.uses_within.1.trans hle⟩

theorem Faithful.disjoint {place : Nat} {es : List Entry} (h : Faithful source place es) :
    es.Pairwise fun a b => a.stop ≤ b.start := by
  induction es generalizing place with
  | nil => exact List.Pairwise.nil
  | cons e es ih =>
    obtain ⟨-, -, hrest⟩ := h
    exact List.pairwise_cons.2 ⟨fun e' he' => (hrest.of_mem e' he').2, ih hrest⟩

/-- No two counters or keys of a run share a byte. -/
theorem Faithful.uses_disjoint {place : Nat} {es : List Entry} (h : Faithful source place es) :
    (es.flatMap Entry.uses).Pairwise fun a b => a.stop ≤ b.start := by
  rw [List.pairwise_flatMap]
  refine ⟨fun e he => (h.of_mem e he).1.uses_within.2.2, ?_⟩
  refine h.disjoint.imp_of_mem ?_
  intro a b ha hb hle u hu v hv
  have hu := ((h.of_mem a ha).1.uses_within.2.1 u hu).2
  have hv := ((h.of_mem b hb).1.uses_within.2.1 v hv).1
  exact (hu.trans hle).trans hv

/-- Over any run of calls on one tape, what each call has drawn begins where the call before has stopped: nothing
for an opened blob, a counter for a seal, and for a seal from a fresh key a counter and then blocks up to
the first that is a key. No byte is drawn by two calls, and none is in two counters or keys. -/
theorem draws_never_overlap (source : Bytes) (calls : List Call) :
    let entries := history calls (.ofBytes source)
    entries.map Entry.call = calls ∧ Faithful source 0 entries ∧
      (entries.Pairwise fun a b => a.stop ≤ b.start) ∧
      (entries.flatMap Entry.uses).Pairwise fun a b => a.stop ≤ b.start := by
  intro entries
  have hfaithful : Faithful source 0 entries := faithful_history calls (Tape.reads_ofBytes source)
  exact ⟨calls_history calls _, hfaithful, hfaithful.disjoint, hfaithful.uses_disjoint⟩

end Wallet.Seal
