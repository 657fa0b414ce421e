import InfoGlobe.Library.StepSystem
import Mathlib.Logic.Function.Basic

/-!
Devices with several slots for an image: one slot is running, and one is booted at the next start.
An update stores an image in a slot that is neither of the two and then makes it the booted one.
As long as every operation keeps to that, a power failure at any time leaves a good image to boot.
-/

namespace SlotUpdate
open StepSystem
universe u v w x
variable {κ : Type u} {ι : Type v} [DecidableEq κ]

structure Device (κ : Type u) (ι : Type v) where
  running : κ
  boot : κ
  content : κ → ι

inductive Op (κ : Type u) (ι : Type v)
  | store (slot : κ) (image : ι)
  | setBoot (slot : κ)
  | restart
  deriving DecidableEq

namespace Device

def apply (d : Device κ ι) : Op κ ι → Device κ ι
  | .store slot image => { d with content := Function.update d.content slot image }
  | .setBoot slot => { d with boot := slot }
  | .restart => { d with running := d.boot }

/-- What the next start will run. -/
def bootImage (d : Device κ ι) : ι := d.content d.boot

def runningImage (d : Device κ ι) : ι := d.content d.running

end Device

/-- An operation that a power failure may follow. -/
def Permitted (Good : ι → Prop) (d : Device κ ι) : Op κ ι → Prop
  | .store slot _ => slot ≠ d.running ∧ slot ≠ d.boot
  | .setBoot slot => Good (d.content slot)
  | .restart => True

/-- The device can go on, and it can start again. -/
structure Bootable (Good : ι → Prop) (d : Device κ ι) : Prop where
  next : Good d.bootImage
  now : Good d.runningImage

section Operations
variable {Good : ι → Prop} {d : Device κ ι}

@[simp] theorem apply_store_running (slot : κ) (image : ι) :
    (d.apply (.store slot image)).running = d.running := rfl

@[simp] theorem apply_store_boot (slot : κ) (image : ι) :
    (d.apply (.store slot image)).boot = d.boot := rfl

@[simp] theorem apply_store_content_self (slot : κ) (image : ι) :
    (d.apply (.store slot image)).content slot = image := by
  simp only [Device.apply, Function.update_self]

theorem apply_store_content_of_ne {slot other : κ} (h : slot ≠ other) (image : ι) :
    (d.apply (.store slot image)).content other = d.content other := by
  simp only [Device.apply, Function.update_of_ne h.symm]

theorem runningImage_apply {op : Op κ ι} (h : Permitted Good d op) :
    (d.apply op).runningImage = if op matches .restart then d.bootImage else d.runningImage := by
  cases op with
  | store slot image => exact apply_store_content_of_ne h.1 image
  | setBoot _ | restart => rfl

theorem bootImage_apply_store {slot : κ} {image : ι} (h : Permitted Good d (.store slot image)) :
    (d.apply (.store slot image)).bootImage = d.bootImage :=
  apply_store_content_of_ne h.2 image

theorem bootable_apply (hd : Bootable Good d) {op : Op κ ι} (h : Permitted Good d op) :
    Bootable Good (d.apply op) := by
  have hnow : Good (d.apply op).runningImage := by
    rw [runningImage_apply h]
    split
    · exact hd.next
    · exact hd.now
  refine ⟨?_, hnow⟩
  cases op with
  | store slot image =>
      rw [bootImage_apply_store h]
      exact hd.next
  | setBoot slot => exact h
  | restart => exact hd.next

end Operations

/-! ### Systems that drive a device -/

section Systems
variable {σ : Type w} {ℓ : Type x} {step : σ → ℓ → Option σ}
variable {device : σ → Device κ ι} {op : σ → ℓ → Option (Op κ ι)} {Good : ι → Prop}

/-- A system that makes permitted operations only never leaves the device without an image. -/
theorem always_bootable
    (drives : ∀ s l t, step s l = some t →
      device t = (op s l).elim (device s) (device s).apply)
    {s : σ} (hs : Bootable Good (device s)) {ls : List ℓ}
    (hls : EachStep step (SeenAs device op (Permitted Good)) s ls) :
    Always step (fun s => Bootable Good (device s)) s ls := by
  refine always_of_eachStep (fun _ h => h) ?_ hs hls
  intro s l t hd hperm hstep
  rw [drives s l t hstep]
  cases hop : op s l with
  | none => exact hd
  | some o => exact bootable_apply hd (hperm o hop)

end Systems

end SlotUpdate
