import HfiWebserver.Guest.Bitmap
import HfiWebserver.Guest.Rapidxml

/-! # The program `tflite`

`main` loads a network, fills its input with the picture and answers the name of a class that no
other class beats (`of_main`). It aborts when the library does not answer as expected.

The interpreter, the allocator and the sort are parameters. The sort is not stable: which one of
several best classes comes first is left to it. -/

namespace HfiWebserver.Guest.Tflite

open HfiWebserver.Lib.ByteStrings HfiWebserver.Guest.Bitmap
open HfiWebserver.Guest.Rapidxml (c_str)

/-! ### The program -/

def NUM_CLASSES : ℕ := 1000

def MEGA : ℕ := 1024 * 1024

def tensor_arena_size : ℕ := 24 * MEGA

def TFLITE_SCHEMA_VERSION : ℕ := 3

def X_MAX : ℕ := 280

def Y_MAX : ℕ := 280

/-- The dimensions of a tensor, and whether it is one of 32-bit floats. -/
structure TfLiteTensor where
  dims : List ℕ
  float32 : Bool

variable {F : Type}

/-- The interpreter of TensorFlow Lite on the model of the guest; `false` and `none` are failures.
-/
structure MicroInterpreter (F : Type) where
  version : Option ℕ
  initialization_status : Bool
  AllocateTensors : Bool
  input : Option TfLiteTensor
  typed_input_tensor : ℕ → Option ℚ
  /-- From the data of the input to the output and its data. -/
  Invoke : (ℕ → Option ℚ) → Option (Option TfLiteTensor × (ℕ → F))

structure ImageNetResult (F : Type) where
  classname : Bytes
  probability : F

def sortByProbabilityDecreasing [LT F] [DecidableLT F] (resA resB : ImageNetResult F) : Bool :=
  decide (resB.probability < resA.probability)

/-- `std::sort` by `sortByProbabilityDecreasing`, as far as it is specified. -/
structure StdSort (F : Type) [LinearOrder F] where
  sort : List (ImageNetResult F) → List (ImageNetResult F)
  perm : ∀ results, (sort results).Perm results
  sorted : ∀ results, (sort results).Pairwise fun a b => sortByProbabilityDecreasing b a = false

def mergeSort [LinearOrder F] : StdSort F where
  sort results := results.mergeSort fun a b => decide (b.probability ≤ a.probability)
  perm results := List.mergeSort_perm results _
  sorted results := by
    refine (List.pairwise_mergeSort (fun a b c hab hbc => ?_) (fun a b => ?_) results).imp ?_
    · exact decide_eq_true ((of_decide_eq_true hbc).trans (of_decide_eq_true hab))
    · simpa using le_total b.probability a.probability
    · exact fun hab => decide_eq_false (not_lt.mpr (of_decide_eq_true hab))

/-- The head of the sorted results beats all of them. -/
theorem head_sort [LinearOrder F] (std : StdSort F) {results : List (ImageNetResult F)}
    {best : ImageNetResult F} (h : (std.sort results).head? = some best) :
    best ∈ results ∧ ∀ r ∈ results, r.probability ≤ best.probability := by
  obtain ⟨rest, hsort⟩ := List.head?_eq_some_iff.mp h
  have hperm := std.perm results
  have hsorted := std.sorted results
  rw [hsort] at hperm hsorted
  refine ⟨hperm.mem_iff.mp List.mem_cons_self, fun r hr => ?_⟩
  rcases List.mem_cons.mp (hperm.mem_iff.mpr hr) with rfl | hr
  · exact le_refl _
  · have hno := List.rel_of_pairwise_cons hsorted hr
    exact not_lt.mp (of_decide_eq_false hno)

/-- What `main` is linked with. -/
structure Environment (F : Type) [LinearOrder F] where
  interpreter : MicroInterpreter F
  malloc : ℕ → Bool
  /-- The memory from the picture on. -/
  inputData : ℕ → UInt8
  image_classes : Vector Bytes NUM_CLASSES
  std : StdSort F

def get_imagenet_classes [Zero F] (image_classes : Vector Bytes NUM_CLASSES) :
    List (ImageNetResult F) := image_classes.toList.map fun classname => ⟨classname, 0⟩

/-- The loop that sets the probabilities. -/
def set_probabilities (f : ℕ → F) (results : List (ImageNetResult F)) : List (ImageNetResult F) :=
  results.mapIdx fun i r => { r with probability := f i }

/-- A class that no class beats. -/
def Best [LE F] (image_classes : Vector Bytes NUM_CLASSES) (f : ℕ → F) (answer : Bytes) : Prop :=
  ∃ (i : ℕ) (hi : i < NUM_CLASSES), answer = c_str image_classes[i] ∧ ∀ j < NUM_CLASSES, f j ≤ f i

section

variable [LinearOrder F] [Zero F]

/-- `main`, which does not look at its arguments; `none` is an abort. -/
def main (env : Environment F) (_argv : List Bytes) : Option Bytes := do
  let version ← env.interpreter.version
  guard (version = TFLITE_SCHEMA_VERSION)
  guard (env.malloc tensor_arena_size)
  guard env.interpreter.initialization_status
  guard env.interpreter.AllocateTensors
  let input ← env.interpreter.input
  guard (input.dims.length = 4)
  guard (input.dims[1]? = some X_MAX)
  guard (input.dims[2]? = some Y_MAX)
  guard (input.dims[3]? = some 3)
  guard input.float32
  let read ← readBitmapToBuffer env.malloc env.inputData env.interpreter.typed_input_tensor X_MAX
    Y_MAX
  let invoked ← env.interpreter.Invoke read.output.buffer
  let output ← invoked.1
  guard (output.dims.length = 2)
  guard (output.dims[0]? = some 1)
  guard (output.dims[1]? = some NUM_CLASSES)
  guard output.float32
  let results : List (ImageNetResult F) := get_imagenet_classes env.image_classes
  let best ← (env.std.sort (set_probabilities invoked.2 results)).head?
  pure (c_str best.classname)

/-! ### The best class -/

theorem best_of_head {std : StdSort F} {image_classes : Vector Bytes NUM_CLASSES} {f : ℕ → F}
    {best : ImageNetResult F}
    (h : (std.sort (set_probabilities f (get_imagenet_classes image_classes))).head? = some best) :
    Best image_classes f (c_str best.classname) := by
  have hlen : (get_imagenet_classes (F := F) image_classes).length = NUM_CLASSES := by
    simp [get_imagenet_classes]
  obtain ⟨hmem, hmax⟩ := head_sort std h
  obtain ⟨i, hi, rfl⟩ := List.mem_mapIdx.mp hmem
  refine ⟨i, by rwa [hlen] at hi, by simp [get_imagenet_classes], fun j hj => ?_⟩
  exact hmax _ (List.mem_mapIdx.mpr ⟨j, by rwa [hlen], rfl⟩)

/-! ### The answer -/

/-- The input of the network for the picture in the memory. -/
def Shows (inputData : ℕ → UInt8) (values : ℕ → Option ℚ) : Prop :=
  ∀ k < X_MAX * Y_MAX * 3, values k = some (value inputData k)

theorem shows_of_read {malloc : ℕ → Bool} {mem : ℕ → UInt8} {buffer : ℕ → Option ℚ}
    {r : Bitmap.Result} (h : readBitmapToBuffer malloc mem buffer X_MAX Y_MAX = some r) :
    found_width mem = X_MAX ∧ found_height mem = Y_MAX ∧ Shows mem r.output.buffer := by
  have hp : ¬ Panics malloc mem X_MAX Y_MAX := by
    intro hp
    rw [read_of_panics buffer hp] at h
    cases h
  have hcount : remaining_bytes X_MAX Y_MAX = X_MAX * Y_MAX * 3 := rfl
  have hread := read_of_not_panics buffer hp
  rw [h, hcount] at hread
  cases hread
  refine ⟨?_, ?_, (read_pixels_inv mem buffer (by decide)).buffer⟩
  · by_contra hw
    exact hp (Or.inl hw)
  · by_contra hh
    exact hp (Or.inr (Or.inl hh))

/-- **`tflite` answers with a best class** for the picture in its memory. -/
theorem of_main {env : Environment F} {argv : List Bytes} {answer : Bytes}
    (h : main env argv = some answer) :
    found_width env.inputData = X_MAX ∧ found_height env.inputData = Y_MAX ∧
      ∃ values output f, Shows env.inputData values ∧
        env.interpreter.Invoke values = some (output, f) ∧ Best env.image_classes f answer := by
  simp only [main, Option.bind_eq_bind, Option.bind_eq_some_iff] at h
  obtain ⟨-, -, -, -, -, -, -, -, -, -, -, -, -, -, -, -, -, -, -, -, -, -, read, hread, ⟨output, f⟩,
    hf, -, -, -, -, -, -, -, -, -, -, best, hbest, hanswer⟩ := h
  cases hanswer
  obtain ⟨hw, hh, hshows⟩ := shows_of_read hread
  exact ⟨hw, hh, _, output, f, hshows, hf, best_of_head hbest⟩

end

end HfiWebserver.Guest.Tflite
