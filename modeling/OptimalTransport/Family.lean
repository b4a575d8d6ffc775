namespace OptimalTransport

structure Family (k : Nat) (β : Type) where
  values : Vector β k

namespace Family

variable {k : Nat} {β : Type}

def ofFn (f : Fin k → β) : Family k β :=
  ⟨Vector.ofFn f⟩

def constant (b : β) : Family k β :=
  ⟨Vector.replicate k b⟩

def ofArray (xs : Array β) : Family xs.size β :=
  ⟨⟨xs, rfl⟩⟩

def get (x : Family k β) (i : Fin k) : β :=
  x.values.get i

def put (x : Family k β) (i : Fin k) (b : β) : Family k β :=
  ⟨x.values.set i b i.isLt⟩

def toList (x : Family k β) : List β :=
  x.values.toList

def map {γ : Type} (f : β → γ) (x : Family k β) : Family k γ :=
  ⟨x.values.map f⟩

theorem get_eq (x : Family k β) (i : Fin k) : x.get i = x.values[i.val] :=
  rfl

@[ext]
theorem ext {x y : Family k β} (h : ∀ i, x.get i = y.get i) : x = y := by
  obtain ⟨xs⟩ := x
  obtain ⟨ys⟩ := y
  congr 1
  exact Vector.ext fun i hi => h ⟨i, hi⟩

@[simp]
theorem get_ofFn (f : Fin k → β) (i : Fin k) : (ofFn f).get i = f i := by
  simp [get_eq, ofFn]

@[simp]
theorem get_constant (b : β) (i : Fin k) : (constant b : Family k β).get i = b := by
  simp [get_eq, constant]

@[simp]
theorem get_map {γ : Type} (f : β → γ) (x : Family k β) (i : Fin k) :
    (x.map f).get i = f (x.get i) := by
  simp [get_eq, map]

theorem toList_eq_ofFn (x : Family k β) : x.toList = List.ofFn x.get := by
  apply List.ext_getElem
  · simp [toList]
  · intro i h h'
    rw [List.getElem_ofFn]
    rfl

theorem get_put (x : Family k β) (i j : Fin k) (b : β) :
    (x.put i b).get j = if i = j then b else x.get j := by
  simp [get_eq, put, Vector.getElem_set, Fin.ext_iff]

@[simp]
theorem get_put_self (x : Family k β) (i : Fin k) (b : β) : (x.put i b).get i = b := by
  simp [get_put]

@[simp]
theorem get_put_of_ne (x : Family k β) {i j : Fin k} (b : β) (h : i ≠ j) :
    (x.put i b).get j = x.get j := by
  simp [get_put, h]

end Family

end OptimalTransport
