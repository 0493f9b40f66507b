import Quadrants.AutoDiff.Scope
import Mathlib.Algebra.Ring.Hom.Defs
import Mathlib.Data.Int.Cast.Lemmas

/-!
Execution of blocks: composition, the log of writes, and the image of a run under
a homomorphism of the real values.
-/

namespace Quadrants.AutoDiff.Ir

open List

theorem State.setCell_writes {α : Type} (s : State α) (isStore : Bool) (ptr : GlobalPtr) (v : α) :
    s.writes <+: (s.setCell isStore ptr v).writes := by
  simp only [State.setCell]
  split
  · exact prefix_refl _
  · exact prefix_append _ _

section Composition

variable {R α : Type} [Ring α] (lift : R → α) (lt : α → α → Bool)

theorem execBlock_append (b c : Block R) : ∀ s : State α,
    execBlock lift lt s (b.append c) = execBlock lift lt (execBlock lift lt s b) c := by
  induction b using Block.rule (P := fun _ => True) with
  | simple | ifStmt | rangeFor => trivial
  | nil => intro s; rw [Block.append, execBlock]
  | cons stmt rest _ ih => intro s; rw [Block.append, execBlock, execBlock, ih]

theorem execBlock_ofList (l : List (Stmt R)) : ∀ s : State α,
    execBlock lift lt s (Block.ofList l) = l.foldl (execStmt lift lt) s := by
  induction l with
  | nil => intro s; rw [Block.ofList, execBlock, foldl_nil]
  | cons stmt rest ih => intro s; rw [Block.ofList, execBlock, ih, foldl_cons]

theorem repeatRange_rule {σ : Type} {P : σ → Prop} (body : Int → σ → σ)
    (hbody : ∀ i s, P s → P (body i s)) (count : Nat) : ∀ (i : Int) (s : σ),
    P s → P (repeatRange body count i s) := by
  induction count with
  | zero => exact fun i s hs => hs
  | succ count ih => exact fun i s hs => ih (i + 1) (body i s) (hbody i s hs)

theorem execStmt_simple_writes {stmt : Stmt R} (hs : stmt.isSimple) (s : State α) :
    s.writes <+: (execStmt lift lt s stmt).writes := by
  cases stmt with
  | ifStmt | rangeFor => simp [Stmt.isSimple] at hs
  | constReal | constInt | logicNot | intBinary => exact prefix_refl _
  | globalStore dest val =>
    rw [execStmt]
    split
    · exact State.setCell_writes ..
    · exact prefix_refl _
  | atomicAdd x dest val =>
    rw [execStmt]
    split
    · exact State.setCell_writes s false dest (s.cell dest + s.reals val.name)
    · exact prefix_refl _
  | _ =>
    rw [execStmt]
    split <;> exact prefix_refl _

theorem execBlock_writes (b : Block R) : ∀ s : State α,
    s.writes <+: (execBlock lift lt s b).writes := by
  induction b using Block.rule
    (P := fun stmt => ∀ s : State α, s.writes <+: (execStmt lift lt s stmt).writes) with
  | simple stmt hs s => exact execStmt_simple_writes lift lt hs s
  | ifStmt cond t f iht ihf s =>
    rw [execStmt]
    split
    · exact iht s
    · exact ihf s
  | rangeFor index begin' end' body ih s =>
    refine repeatRange_rule (P := fun s' : State α => s.writes <+: s'.writes) _ ?_ _ _ _
      (prefix_refl _)
    intro i s' hs'
    exact hs'.trans (ih (s'.setInt index.name i))
  | nil => intro s; exact prefix_refl _
  | cons stmt rest ihs ihr =>
    intro s
    exact (ihs s).trans (ihr _)

end Composition

section Homomorphism

variable {R α β : Type} [Ring α] [Ring β]

def State.map (f : α → β) (s : State α) : State β :=
  { s with
    reals := fun n => f (s.reals n)
    realVars := fun n => f (s.realVars n)
    realCells := fun n d i => f (s.realCells n d i) }

variable (f : α →+* β) {lift : R → α} {lt : α → α → Bool} {lift' : R → β} {lt' : β → β → Bool}
  (hlift : ∀ c, lift' c = f (lift c)) (hlt : ∀ a b, lt' (f a) (f b) = lt a b)

theorem State.map_setReal (s : State α) (x : Nat) (v : α) :
    (s.setReal x v).map f = (s.map f).setReal x (f v) := by
  simp only [State.map, State.setReal, State.mk.injEq, and_true]
  funext n
  exact Function.apply_update (fun _ => f) s.reals x v n

theorem State.map_setRealVar (s : State α) (x : Nat) (v : α) :
    (s.setRealVar x v).map f = (s.map f).setRealVar x (f v) := by
  simp only [State.map, State.setRealVar, State.mk.injEq, and_true, true_and]
  funext n
  exact Function.apply_update (fun _ => f) s.realVars x v n

theorem State.map_setCell (s : State α) (isStore : Bool) (ptr : GlobalPtr) (v : α) :
    (s.setCell isStore ptr v).map f = (s.map f).setCell isStore ptr (f v) := by
  simp only [State.map, State.setCell, State.mk.injEq, true_and]
  refine ⟨?_, rfl⟩
  funext n d i
  exact apply_ite f _ _ _

include hlt in
theorem evalArith_map (op : ArithOp) (a b : α) :
    evalArith lt' op (f a) (f b) = f (evalArith lt op a b) := by
  cases op <;> simp [evalArith, hlt, apply_ite f]

include hlt in
theorem evalCmp_map (op : CmpOp) (a b : α) : evalCmp lt' op (f a) (f b) = evalCmp lt op a b := by
  cases op <;> simp [evalCmp, hlt]

include hlift hlt in
theorem execStmt_simple_map {stmt : Stmt R} (hs : stmt.isSimple) (s : State α) :
    execStmt lift' lt' (s.map f) stmt = (execStmt lift lt s stmt).map f := by
  cases stmt with
  | ifStmt | rangeFor => simp [Stmt.isSimple] at hs
  | constReal x c => rw [execStmt, execStmt, State.map_setReal, hlift]
  | constInt | logicNot | intBinary => rfl
  | neg x a =>
    rw [execStmt, execStmt]
    split
    · rw [State.map_setReal, map_neg]
      rfl
    · rfl
  | castValue x a =>
    rw [execStmt, execStmt]
    split
    · rw [State.map_setReal]
      rfl
    · rw [State.map_setReal, map_intCast]
      rfl
  | binary x op a b =>
    rw [execStmt, execStmt]
    split
    · rw [State.map_setReal, ← evalArith_map f hlt]
      rfl
    · rfl
  | compare x op a b =>
    rw [execStmt, execStmt]
    split
    · rw [← evalCmp_map f hlt]
      rfl
    · rfl
  | select x c a b =>
    rw [execStmt, execStmt]
    split
    · rw [State.map_setReal, apply_ite f]
      rfl
    · rfl
  | alloca x =>
    rw [execStmt, execStmt]
    split
    · rw [State.map_setRealVar, map_zero]
    · rfl
  | localLoad x src =>
    rw [execStmt, execStmt]
    split
    · rw [State.map_setReal]
      rfl
    · rfl
  | localStore dest val =>
    rw [execStmt, execStmt]
    split
    · rw [State.map_setRealVar]
      rfl
    · rfl
  | globalLoad x src =>
    rw [execStmt, execStmt]
    split
    · rw [State.map_setReal]
      rfl
    · rfl
  | globalStore dest val =>
    rw [execStmt, execStmt]
    split
    · rw [State.map_setCell]
      rfl
    · rfl
  | atomicAdd x dest val =>
    rw [execStmt, execStmt]
    split
    · rw [State.map_setReal, State.map_setCell, map_add]
      rfl
    · rfl

include hlift hlt in
theorem execBlock_map (b : Block R) : ∀ s : State α,
    execBlock lift' lt' (s.map f) b = (execBlock lift lt s b).map f := by
  induction b using Block.rule (P := fun stmt => ∀ s : State α,
    execStmt lift' lt' (s.map f) stmt = (execStmt lift lt s stmt).map f) with
  | simple stmt hs s => exact execStmt_simple_map f hlift hlt hs s
  | ifStmt cond t e iht ihe s =>
    simp only [execStmt]
    rw [iht, ihe, ← apply_ite (State.map f)]
    rfl
  | rangeFor index begin' end' body ih s =>
    simp only [execStmt]
    have hloop : ∀ (count : Nat) (i : Int) (s : State α),
        repeatRange (fun i s => execBlock lift' lt' (s.setInt index.name i) body) count i
            (s.map f) =
          (repeatRange (fun i s => execBlock lift lt (s.setInt index.name i) body) count i
            s).map f := by
      intro count
      induction count with
      | zero => exact fun i s => rfl
      | succ count ihc =>
        intro i s
        rw [repeatRange, repeatRange, ← ihc, ← ih]
        rfl
    exact hloop _ _ s
  | nil => intro s; rfl
  | cons stmt rest ihs ihr =>
    intro s
    rw [execBlock, execBlock, ihs, ihr]

end Homomorphism

end Quadrants.AutoDiff.Ir
