import FieldCircuit.Proofs.Kernel.Launch
import Mathlib.Data.List.Induction

/-!
# Granted and refused arguments

A stage asks for the buffers of its arguments one after the other. An argument is proper if its slot
is bound to an accelerator buffer of the length that it expects, and two arguments clash if they
share memory and one of them is written. A stage is granted its arguments exactly if all of them are
proper and no two clash; otherwise the first argument that is not proper, or clashes with an earlier
one, decides on the error.
-/

namespace FieldCircuit

namespace Buffer

@[simp] theorem length_toLaunch (b : Buffer) : b.toLaunch.length = b.length := by
  unfold toLaunch
  cases b.contents <;> rfl

@[simp] theorem words_toLaunch_eq_none_iff {b : Buffer} :
    b.toLaunch.words = none ↔ b.contents.side ≠ .accelerator := by
  unfold toLaunch
  cases b.contents <;> simp [Contents.side]

end Buffer

def Bindings.Within (b : Bindings) (buffers : Array Buffer) : Prop :=
  ∀ slot position, b.get? slot = some position → position < buffers.size

namespace Argument

def Proper (b : Bindings) (buffers : Array Buffer) (a : Argument) : Prop :=
  ∃ position buffer, b.get? a.slot = some position ∧ buffers[position]? = some buffer ∧
    buffer.length = a.words ∧ buffer.contents.side = .accelerator

/-- The arguments share memory, and one of them is written. -/
def Clashes (b : Bindings) (x y : Argument) : Prop :=
  (x.isOutput ∨ y.isOutput) ∧ b.get? x.slot = b.get? y.slot

/-- The error of an argument that is refused after the arguments before it have been granted. -/
inductive Refused (kernel : String) (b : Bindings) (buffers : Array Buffer)
    (earlier : List Argument) (a : Argument) : KernelError → Prop
  | unbound (slot : b.get? a.slot = none) :
      Refused kernel b buffers earlier a (.launch kernel (.unbound a.slot))
  | length {position : Nat} {buffer : Buffer} (slot : b.get? a.slot = some position)
      (found : buffers[position]? = some buffer) (differs : buffer.length ≠ a.words) :
      Refused kernel b buffers earlier a
        (.launch kernel (.wrongLength a.name a.words buffer.length))
  | side {position : Nat} {buffer : Buffer} (slot : b.get? a.slot = some position)
      (found : buffers[position]? = some buffer) (length : buffer.length = a.words)
      (host : buffer.contents.side ≠ .accelerator) :
      Refused kernel b buffers earlier a (.device (.wrongSide a.access .host))
  | shared (proper : a.Proper b buffers) {other : Argument} (mem : other ∈ earlier)
      (clashes : other.Clashes b a) :
      Refused kernel b buffers earlier a (.device (.borrowed a.access))

theorem Proper.get? {b : Bindings} {buffers : Array Buffer} {a : Argument}
    (h : a.Proper b buffers) : b.get? a.slot = some (b.position a.slot) := by
  obtain ⟨position, -, hget, -⟩ := h
  rw [Bindings.position, hget, Option.getD_some]

theorem Proper.get?_eq_iff {b : Bindings} {buffers : Array Buffer} {x y : Argument}
    (hx : x.Proper b buffers) (hy : y.Proper b buffers) :
    b.get? x.slot = b.get? y.slot ↔ b.position x.slot = b.position y.slot := by
  rw [hx.get?, hy.get?, Option.some.injEq]

end Argument

/-- All arguments are proper, and no two of them clash. -/
structure Bindings.Admits (b : Bindings) (buffers : Array Buffer) (arguments : List Argument) :
    Prop where
  proper : ∀ a ∈ arguments, a.Proper b buffers
  apart : arguments.Pairwise fun x y => ¬x.Clashes b y

/-- The error of a stage whose arguments are not all granted: that of the first argument that is
refused. -/
def Stage.Refused (s : Stage) (b : Bindings) (buffers : Array Buffer) (e : KernelError) : Prop :=
  ∃ earlier a later, s.arguments = earlier ++ a :: later ∧ b.Admits buffers earlier ∧
    a.Refused s.name b buffers earlier e

variable {b : Bindings} {buffers : Array Buffer}

namespace Bindings.Admits

theorem nil : b.Admits buffers [] := ⟨by simp, .nil⟩

/-- One more argument is admitted if it is proper and clashes with none before it. -/
theorem concat {earlier : List Argument} {a : Argument} (h : b.Admits buffers earlier)
    (ha : a.Proper b buffers) (hapart : ∀ other ∈ earlier, ¬other.Clashes b a) :
    b.Admits buffers (earlier ++ [a]) where
  proper := by
    intro x hx
    rcases List.mem_append.1 hx with hx | hx
    · exact h.proper x hx
    · exact List.mem_singleton.1 hx ▸ ha
  apart := by
    refine List.pairwise_append.2 ⟨h.apart, List.pairwise_singleton _ _, ?_⟩
    intro other hother x hx
    exact List.mem_singleton.1 hx ▸ hapart other hother

theorem split {earlier later : List Argument} {a : Argument}
    (h : b.Admits buffers (earlier ++ a :: later)) :
    b.Admits buffers earlier ∧ a.Proper b buffers ∧ ∀ other ∈ earlier, ¬other.Clashes b a := by
  obtain ⟨hearlier, -, hacross⟩ := List.pairwise_append.1 h.apart
  exact ⟨⟨fun x hx => h.proper x (by simp [hx]), hearlier⟩, h.proper a (by simp),
    fun other hother => hacross other hother a (by simp)⟩

end Bindings.Admits

namespace Grants

def of (b : Bindings) (arguments : List Argument) : Grants where
  reads := (arguments.filter fun a => !a.isOutput).map fun a => b.position a.slot
  writes := (arguments.filter fun a => a.isOutput).map fun a => b.position a.slot

theorem mem_writes_of {arguments : List Argument} {position : Nat} :
    position ∈ (of b arguments).writes ↔
      ∃ a ∈ arguments, a.isOutput = true ∧ b.position a.slot = position := by
  simp [of, and_assoc]

theorem mem_of {arguments : List Argument} {position : Nat} :
    position ∈ (of b arguments).reads ∨ position ∈ (of b arguments).writes ↔
      ∃ a ∈ arguments, b.position a.slot = position := by
  simp only [of, List.mem_map, List.mem_filter]
  constructor
  · rintro (⟨a, ⟨ha, -⟩, hposition⟩ | ⟨a, ⟨ha, -⟩, hposition⟩) <;> exact ⟨a, ha, hposition⟩
  · rintro ⟨a, ha, hposition⟩
    cases hout : a.isOutput with
    | false => exact .inl ⟨a, ⟨ha, by simp [hout]⟩, hposition⟩
    | true => exact .inr ⟨a, ⟨ha, hout⟩, hposition⟩

/-- What has been granted after arguments that are read and one that is written. -/
theorem of_append {reads : List Argument} {a : Argument} (hreads : ∀ r ∈ reads, r.isOutput = false)
    (ha : a.isOutput = true) :
    of b (reads ++ [a]) = ⟨reads.map fun r => b.position r.slot, [b.position a.slot]⟩ := by
  have hread : reads.filter (fun r => !r.isOutput) = reads :=
    List.filter_eq_self.2 fun r hr => by simp [hreads r hr]
  have hwrite : reads.filter (fun r => r.isOutput) = [] :=
    List.filter_eq_nil_iff.2 fun r hr => by simp [hreads r hr]
  simp [of, hread, hwrite, ha]

variable {earlier : List Argument} {a : Argument}

theorem grant_of (h : b.Admits buffers earlier) (ha : a.Proper b buffers)
    (hapart : ∀ other ∈ earlier, ¬other.Clashes b a) :
    (of b earlier).grant a.access (b.position a.slot) = .ok (of b (earlier ++ [a])) := by
  have hsame : ∀ other ∈ earlier, b.position other.slot = b.position a.slot →
      ¬(other.isOutput ∨ a.isOutput) := fun other hother hposition hwritten =>
    hapart other hother ⟨hwritten, ((h.proper other hother).get?_eq_iff ha).2 hposition⟩
  cases hout : a.isOutput with
  | true =>
      have hfree : ¬(b.position a.slot ∈ (of b earlier).reads ∨
          b.position a.slot ∈ (of b earlier).writes) := by
        rw [mem_of]
        rintro ⟨other, hother, hposition⟩
        exact hsame other hother hposition (.inr hout)
      simp only [Argument.access, hout, if_true, grant, if_neg hfree]
      simp [of, hout]
  | false =>
      have hfree : b.position a.slot ∉ (of b earlier).writes := by
        rw [mem_writes_of]
        rintro ⟨other, hother, hwritten, hposition⟩
        exact hsame other hother hposition (.inl hwritten)
      simp only [Argument.access, hout, Bool.false_eq_true, if_false, grant, if_neg hfree]
      simp [of, hout]

theorem grant_of_clashes (h : b.Admits buffers earlier) (ha : a.Proper b buffers)
    {other : Argument} (hother : other ∈ earlier) (hclashes : other.Clashes b a) :
    (of b earlier).grant a.access (b.position a.slot) = .error (.borrowed a.access) := by
  obtain ⟨hwritten, hget⟩ := hclashes
  have hposition := ((h.proper other hother).get?_eq_iff ha).1 hget
  cases hout : a.isOutput with
  | true =>
      have htaken := mem_of.2 ⟨other, hother, hposition⟩
      simp only [Argument.access, hout, if_true, grant, if_pos htaken]
  | false =>
      have htaken := mem_writes_of.2 ⟨other, hother, by simpa [hout] using hwritten, hposition⟩
      simp only [Argument.access, hout, Bool.false_eq_true, if_false, grant, if_pos htaken]

end Grants

namespace Argument

variable {earlier : List Argument} {a : Argument} {kernel : String}

theorem Proper.grant_eq (ha : a.Proper b buffers) (kernel : String) (g : Grants) :
    a.grant kernel (buffers.map Buffer.toLaunch) b g =
      (g.grant a.access (b.position a.slot)).mapError .device := by
  obtain ⟨position, buffer, hget, hat, hlength, hside⟩ := ha
  simp [grant, Bindings.position, hget, hat, hlength, hside]

theorem Refused.grant_eq {e : KernelError} (h : a.Refused kernel b buffers earlier e)
    (hearlier : b.Admits buffers earlier) :
    a.grant kernel (buffers.map Buffer.toLaunch) b (.of b earlier) = .error e := by
  cases h with
  | unbound hget => simp [grant, hget]
  | length hget hat hlength => simp [grant, hget, hat, hlength]
  | side hget hat hlength hside => simp [grant, hget, hat, hlength, hside]
  | shared ha hother hclashes =>
      rw [ha.grant_eq, Grants.grant_of_clashes hearlier ha hother hclashes]
      rfl

theorem proper_or_refused (hb : b.Within buffers) (kernel : String) (earlier : List Argument)
    (a : Argument) : (a.Proper b buffers ∧ ∀ other ∈ earlier, ¬other.Clashes b a) ∨
      ∃ e, a.Refused kernel b buffers earlier e := by
  cases hget : b.get? a.slot with
  | none => exact .inr ⟨_, .unbound hget⟩
  | some position =>
      obtain ⟨buffer, hat⟩ : ∃ buffer, buffers[position]? = some buffer :=
        ⟨_, Array.getElem?_eq_getElem (hb _ _ hget)⟩
      by_cases hlength : buffer.length = a.words
      · by_cases hside : buffer.contents.side = .accelerator
        · have ha : a.Proper b buffers := ⟨position, buffer, hget, hat, hlength, hside⟩
          by_cases hclash : ∃ other ∈ earlier, other.Clashes b a
          · obtain ⟨other, hother, hclashes⟩ := hclash
            exact .inr ⟨_, .shared ha hother hclashes⟩
          · exact .inl ⟨ha, fun other hother hclashes => hclash ⟨other, hother, hclashes⟩⟩
        · exact .inr ⟨_, .side hget hat hlength hside⟩
      · exact .inr ⟨_, .length hget hat hlength⟩

end Argument

namespace Bindings.Admits

theorem foldlM_grant {arguments : List Argument} (h : b.Admits buffers arguments)
    (kernel : String) :
    arguments.foldlM (Argument.grant kernel (buffers.map Buffer.toLaunch) b) ⟨[], []⟩ =
      .ok (.of b arguments) := by
  induction arguments using List.reverseRecOn with
  | nil => rfl
  | append_singleton earlier a ih =>
      obtain ⟨hearlier, ha, hapart⟩ := h.split
      rw [List.foldlM_append, ih hearlier, ok_bind, List.foldlM_cons, ha.grant_eq,
        Grants.grant_of hearlier ha hapart]
      rfl

end Bindings.Admits

/-- Arguments are admitted, or there is a first one that is refused. -/
theorem Bindings.Within.admits_or_refused (hb : b.Within buffers) (kernel : String)
    (arguments : List Argument) : b.Admits buffers arguments ∨
      ∃ earlier a later e, arguments = earlier ++ a :: later ∧ b.Admits buffers earlier ∧
        a.Refused kernel b buffers earlier e := by
  induction arguments using List.reverseRecOn with
  | nil => exact .inl .nil
  | append_singleton arguments a ih =>
      rcases ih with hadmits | ⟨earlier, x, later, e, rfl, hearlier, hrefused⟩
      · rcases a.proper_or_refused hb kernel arguments with ⟨ha, hapart⟩ | ⟨e, hrefused⟩
        · exact .inl (hadmits.concat ha hapart)
        · exact .inr ⟨arguments, a, [], e, rfl, hadmits, hrefused⟩
      · exact .inr ⟨earlier, x, later ++ [a], e, by simp, hearlier, hrefused⟩

namespace Stage

variable {s : Stage}

/-- A refused stage is granted nothing, and says why. -/
theorem Refused.grants_eq {e : KernelError} (h : s.Refused b buffers e) :
    s.grants (buffers.map Buffer.toLaunch) b = .error e := by
  obtain ⟨earlier, a, later, hsplit, hearlier, hrefused⟩ := h
  rw [grants, hsplit, List.foldlM_append, hearlier.foldlM_grant, ok_bind, List.foldlM_cons,
    hrefused.grant_eq hearlier]
  rfl

theorem admits_or_refused (hb : b.Within buffers) (s : Stage) :
    b.Admits buffers s.arguments ∨ ∃ e, s.Refused b buffers e := by
  rcases hb.admits_or_refused s.name s.arguments with
    hadmits | ⟨earlier, a, later, e, hsplit, hearlier, hrefused⟩
  · exact .inl hadmits
  · exact .inr ⟨e, earlier, a, later, hsplit, hearlier, hrefused⟩

end Stage

end FieldCircuit
