import Stoned.Program.Admitted

namespace stoned.program

variable {S S' : Signature} {σ τ α : Type}

/-- A program whose operations are programs of another signature. -/
def Program.interpret (handle : (op : S.Op) → Program S' (S.Answer op)) : Program S α → Program S' α
  | .ret value => .ret value
  | .step op next => handle op >>= fun answer => (next answer).interpret handle
  | .halt => .halt

variable {handle : (op : S.Op) → Program S' (S.Answer op)} {T : Transformer S τ} {T' : Transformer S' σ}

/-- What every operation's program keeps, the interpreted program keeps. -/
theorem Program.wp_interpret {I : σ → Prop} (h : ∀ op s, I s → (handle op).wp T' (fun _ t => I t) s)
    (hT' : T'.Monotone) {p : Program S α} {s : σ} (hs : I s) : (p.interpret handle).wp T' (fun _ t => I t) s := by
  induction p generalizing s with
  | ret value => exact hs
  | step op next ih =>
    rw [Program.interpret, wp_bind]
    exact Program.wp_mono hT' (fun answer t ht => ih answer ht) (h op s hs)
  | halt => trivial

/-- A program that returns where its operations are abstract returns where they
are programs that do what is known of them, in related states. -/
theorem Program.total_interpret {R : τ → σ → Prop} (hT' : T'.Monotone)
    (h : ∀ op x s Q, R x s → T op x Q → (handle op).total T' (fun answer t => ∃ y, R y t ∧ Q answer y) s)
    {p : Program S α} {Q : α → τ → Prop} {x : τ} {s : σ} (hxs : R x s) (hp : p.total T Q x) :
    (p.interpret handle).total T' (fun value t => ∃ y, R y t ∧ Q value y) s := by
  induction p generalizing x s with
  | ret value => exact ⟨x, hxs, hp⟩
  | step op next ih =>
    exact Program.total_seq hT' (h op x s _ hxs hp) fun answer t ⟨y, hyt, hnext⟩ => ih answer hyt hnext
  | halt => exact hp.elim

end stoned.program
