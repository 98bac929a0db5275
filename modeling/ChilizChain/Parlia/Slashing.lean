import ChilizChain.Parlia.Assembly

/-! Whether a block can leave out the slash. An importing node that does not find the slash where it
expects it logs the error and goes on with the next call, from the state without the slash. So the
slash is enforced only where the calls that follow it need it. -/

namespace ChilizChain

open Stateful Finalizer

variable {σ δ : Type} [DecidableEq δ] {p : Finalizer σ δ} {author : Author}

/-! ## From an import to a production -/

variable {header : BlockHead}

section

variable {header parent : Header} {spoiledVal : Address} {s : σ} {common : List Tx}
  {receipts : List Receipt} {gasUsed : ℕ}

variable (hinj : Function.Injective p.signerHash) (hauthor : author.Faithful p)
  (hsigns : ∀ content, ∃ tx, author.signTxFn content = .ok tx)
  (hval : author.val = header.coinbase) (hpack : p.pack .init ≠ p.pack (.slash spoiledVal))
  (hspoiled : p.spoiledValidator header.head = .ok (some spoiledVal))
  (hparent : p.chain.getHeaderByHash p.k header.parentHash = some parent)

end

/-! ### In the small world -/

def spoiledSample : Address := FixedBytes.ofBytes 20 [7]

/-- The small world with that snapshot. `fails` tells which calls fail in which state. -/
def slashingEngine (fails : Message → Purse → Bool) : Finalizer Purse TxData :=
  { smallEngine (fun _ => none) [smallHeader 4 5] with
    snapshot := fun number hash _ =>
      .ok (Snapshot.newSnapshot default number hash [spoiledSample] [] false)
    applyMessage := fun _ msg s =>
      if fails msg s then (.error .outOfGas, s) else (.ok (21000, []), s) }

section SmallWorld

variable (fails : Message → Purse → Bool)

end SmallWorld

end ChilizChain
