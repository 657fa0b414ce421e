import Mathlib.Data.List.Induction
import Mathlib.Logic.Function.Basic

/-!
A file of named registers: a write replaces one register, and the content of a register is the
value that was written to it last.
-/

namespace RegisterFile
universe u v
variable {κ : Type u} {α : Type v} [DecidableEq κ]

def write (regs : κ → α) (w : κ × α) : κ → α := Function.update regs w.1 w.2

def writeAll (regs : κ → α) (ws : List (κ × α)) : κ → α := ws.foldl write regs

/-- The last value written to `k`. -/
def latest (k : κ) (ws : List (κ × α)) : Option α :=
  ((ws.filter fun w => w.1 = k).getLast?).map Prod.snd

@[simp] theorem write_same (regs : κ → α) (k : κ) (v : α) : write regs (k, v) k = v := by
  unfold write
  exact Function.update_self k v regs

theorem write_other (regs : κ → α) {j k : κ} (v : α) (h : j ≠ k) :
    write regs (k, v) j = regs j := by
  unfold write
  exact Function.update_of_ne h v regs

theorem writeAll_append (regs : κ → α) (ws vs : List (κ × α)) :
    writeAll regs (ws ++ vs) = writeAll (writeAll regs ws) vs :=
  List.foldl_append

/-- Reading a register gives the latest write to it, or what it held before all of them. -/
theorem writeAll_apply (regs : κ → α) (ws : List (κ × α)) (k : κ) :
    writeAll regs ws k = (latest k ws).getD (regs k) := by
  induction ws using List.reverseRecOn with
  | nil => rfl
  | append_singleton ws w ih =>
      obtain ⟨j, v⟩ := w
      rw [writeAll_append, latest, List.filter_append]
      by_cases h : j = k
      · subst h
        simp [writeAll]
      · have hne : k ≠ j := fun hkj => h hkj.symm
        have hkeep : writeAll (writeAll regs ws) [(j, v)] k = writeAll regs ws k :=
          write_other _ v hne
        rw [hkeep, ih]
        simp [latest, h]

end RegisterFile
