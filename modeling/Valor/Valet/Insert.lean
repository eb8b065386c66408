import Valor.Lib.EditBuffer
import Valor.Valet.Statements

/-! What `rewrite` inserts into the text of a body, in tokens. A `co_await` has the number of
its stage, and the stages are in the order of the text. -/
namespace Valor.Valet

open Edits

def semiFrom : Nat → List Tok → Option Nat
  | _, [] => none
  | k, .semi :: _ => some k
  | k, _ :: ts => semiFrom (k + 1) ts

/-- The calls of `save` and `load`, the one at the `co_await` and the other behind the next
semicolon, for the text from place `k` on. -/
def stageEdits (names : Nat → List String) : Nat → List Tok → Option (List (Nat × List Tok))
  | _, [] => some []
  | k, .coawait s _ :: ts => do
    let j ← semiFrom (k + 1) ts
    let rest ← stageEdits names (k + 1) ts
    return (k, [.save (s + 1) (names s), .semi]) ::
      (j + 1, [.load (s + 1) (names s), .semi]) :: rest
  | k, _ :: ts => stageEdits names (k + 1) ts

/-- The preamble comes behind the brace that opens the body. -/
def rewriteBody (p : Preamble) (names : Nat → List String) (ts : List Tok) : Option (List Tok) := do
  let edits ← stageEdits names 0 ts
  let b ← (Buffer.new ts).insertAll ((1, [.preamble p]) :: edits)
  return b.text

/-- The text with the calls in it. -/
def splice (names : Nat → List String) : List Tok → List Tok
  | .coawait s e :: .semi :: ts =>
    .save (s + 1) (names s) :: .semi :: .coawait s e :: .semi ::
      .load (s + 1) (names s) :: .semi :: splice names ts
  | t :: ts => t :: splice names ts
  | [] => []

def Tok.isAwait : Tok → Bool
  | .coawait _ _ => true
  | _ => false

/-- Each `co_await` is a whole statement. -/
inductive AwaitsEnd : List Tok → Prop where
  | nil : AwaitsEnd []
  | plain {t ts} : t.isAwait = false → AwaitsEnd ts → AwaitsEnd (t :: ts)
  | await s e {ts} : AwaitsEnd ts → AwaitsEnd (.coawait s e :: .semi :: ts)

variable {names : Nat → List String} {ts us : List Tok}

theorem AwaitsEnd.append (h : AwaitsEnd ts) (h' : AwaitsEnd us) : AwaitsEnd (ts ++ us) := by
  induction h with
  | nil => exact h'
  | plain other _ ih => exact .plain other ih
  | await s e _ ih => exact .await s e ih

theorem awaitsEnd_print (c : Source) : AwaitsEnd c.print := by
  induction c with
  | nil => exact .nil
  | block _ _ ih ih' => exact .plain rfl (ih.append (.plain rfl ih'))
  | if' _ _ _ _ ih ih' ih'' =>
    refine .plain rfl (ih.append (AwaitsEnd.append ?_ ih''))
    split
    · exact .nil
    · exact .plain rfl ih'
  | while' _ _ _ ih ih' | for' _ _ _ _ _ _ ih ih' => exact .plain rfl (ih.append ih')
  | coawait s e _ ih => exact .await s e ih
  | expr _ _ _ ih | save _ _ _ ih | load _ _ _ ih => exact .plain rfl (.plain rfl ih)
  | preamble _ _ ih => exact .plain rfl ih

theorem splice_plain {t : Tok} (other : t.isAwait = false) (ts : List Tok) :
    splice names (t :: ts) = t :: splice names ts := by
  cases t <;> first | rfl | contradiction

theorem splice_append (h : AwaitsEnd ts) (us : List Tok) :
    splice names (ts ++ us) = splice names ts ++ splice names us := by
  induction h with
  | nil => rfl
  | plain other _ ih =>
    rw [List.cons_append, splice_plain other, splice_plain other, ih, List.cons_append]
  | await s e _ ih => simp only [List.cons_append, splice, ih]

/-! ## The edits make the splice -/

theorem stageEdits_plain {t : Tok} (other : t.isAwait = false) (k : Nat) (ts : List Tok) :
    stageEdits names k (t :: ts) = stageEdits names (k + 1) ts := by
  cases t <;> first | rfl | contradiction

theorem stageEdits_await (s : Nat) (e : Expr) (k : Nat) (ts : List Tok) :
    stageEdits names k (.coawait s e :: .semi :: ts) =
      (stageEdits names (k + 2) ts).map fun rest => (k, [.save (s + 1) (names s), .semi]) ::
        (k + 2, [.load (s + 1) (names s), .semi]) :: rest := by
  simp only [stageEdits, semiFrom, Option.bind_eq_bind, Option.bind_some]
  cases stageEdits names (k + 1 + 1) ts <;> rfl

/-- The edits of a text from `k` on are those of the parts of what `splice` makes of it. -/
theorem stageEdits_spec (names : Nat → List String) (h : AwaitsEnd ts) (k : Nat) :
    ∃ ps : List (Chunk Tok), stageEdits names k ts = some (Chunk.edits k ps) ∧
      Chunk.original ps = ts ∧ Chunk.result ps = splice names ts := by
  induction h generalizing k with
  | nil => exact ⟨[], rfl, rfl, rfl⟩
  | @plain t ts other _ ih =>
    obtain ⟨ps, asked, original, result⟩ := ih (k + 1)
    refine ⟨.orig [t] :: ps, (stageEdits_plain other k ts).trans asked, ?_, ?_⟩
    · rw [Chunk.original, original, List.singleton_append]
    · rw [Chunk.result, result, splice_plain other, List.singleton_append]
  | @await s e ts _ ih =>
    obtain ⟨ps, asked, original, result⟩ := ih (k + 2)
    refine ⟨.ins [.save (s + 1) (names s), .semi] :: .orig [.coawait s e, .semi] ::
      .ins [.load (s + 1) (names s), .semi] :: ps, ?_, ?_, ?_⟩
    · rw [stageEdits_await, asked]
      rfl
    · simp [Chunk.original, original]
    · simp [Chunk.result, result, splice]

theorem rewriteBody_spec (p : Preamble) (names : Nat → List String) (h : AwaitsEnd ts) :
    rewriteBody p names (.lbrace :: ts) =
      some (.lbrace :: .preamble p :: splice names ts) := by
  obtain ⟨ps, asked, original, result⟩ := stageEdits_spec names h 1
  let all : List (Chunk Tok) := .orig [.lbrace] :: .ins [.preamble p] :: ps
  have text : Chunk.original all = .lbrace :: ts := by simp [all, Chunk.original, original]
  have fits : ∀ e ∈ Chunk.edits 0 all, e.1 ≤ (Tok.lbrace :: ts).length := by
    intro e mem
    have := (Chunk.edits_inside e mem).2
    rwa [text, Nat.zero_add] at this
  obtain ⟨b, run, woven⟩ := weaves_run _ _ fits
  have made : b.text = .lbrace :: .preamble p :: splice names ts := by
    have parts := weave_edits all 0
    simp only [Nat.zero_add, text] at parts
    rw [woven.text, parts]
    simp [all, Chunk.result, result]
  have asked' : (1, [Tok.preamble p]) :: Chunk.edits 1 ps = Chunk.edits 0 all := rfl
  simp only [rewriteBody, stageEdits_plain (t := Tok.lbrace) rfl, asked, Option.bind_eq_bind,
    Option.bind_some, asked', run, made, pure]

end Valor.Valet
