import FieldCircuit.Checkpoint.Restore
import FieldCircuit.Proofs.Field.Layout
import FieldCircuit.Proofs.Keeping
import FieldCircuit.Proofs.Text.Number

/-!
# What is stored is read back

The parameters of a kernel are written under distinct names, so that each of them is found again, no
matter what the checkpoint held before. Extents are written as a list of numbers between commas; the
list of no extents is the empty text, which reads as one empty piece and is dropped.
-/

namespace FieldCircuit

namespace Checkpoint

theorem get?_write_self (c : Checkpoint) (name : String) (value : StoredValue) :
    (c.write name value).get? name = some value :=
  lookup_entered_self name value c.fields

theorem get?_write_of_ne {name other : String} (h : other ≠ name) (c : Checkpoint)
    (value : StoredValue) : (c.write name value).get? other = c.get? other :=
  lookup_entered_of_ne h value c.fields

def writeAll (c : Checkpoint) (fields : List (String × StoredValue)) : Checkpoint :=
  fields.foldl (fun c (name, value) => c.write name value) c

theorem get?_writeAll_of_notMem {name : String} {fields : List (String × StoredValue)}
    (h : name ∉ fields.map Prod.fst) (c : Checkpoint) :
    (c.writeAll fields).get? name = c.get? name := by
  induction fields generalizing c with
  | nil => rfl
  | cons field fields ih =>
      rw [List.map_cons, List.mem_cons, not_or] at h
      exact (ih h.2 _).trans (get?_write_of_ne h.1 c field.2)

/-- A field is found under its name unless another one is written under the same. -/
theorem get?_writeAll {fields : List (String × StoredValue)} (h : (fields.map Prod.fst).Nodup)
    (c : Checkpoint) {name : String} {value : StoredValue} (hmem : (name, value) ∈ fields) :
    (c.writeAll fields).get? name = some value := by
  induction fields generalizing c with
  | nil => cases hmem
  | cons field fields ih =>
      rw [List.map_cons, List.nodup_cons] at h
      rcases List.mem_cons.1 hmem with rfl | hmem
      · exact (get?_writeAll_of_notMem h.1 _).trans (get?_write_self c name value)
      · exact ih h.2 _ hmem

variable {c : Checkpoint} {name : String}

theorem readText_eq_ok {s : String} (h : c.get? name = some (.text s)) : c.readText name = .ok s := by
  simp only [readText, read, h, ok_bind]
  rfl

theorem readWords_eq_ok {values : Array Float32} (h : c.get? name = some (.words values)) :
    c.readWords name = .ok values := by
  simp only [readWords, read, h, ok_bind]
  rfl

theorem readVersionNumber_eq_ok {n : Nat} (h : c.get? name = some (.integer n))
    (hn : n < Version.bound) : c.readVersionNumber name = .ok n := by
  have hread : c.readInteger name = .ok (n : Int) := by
    simp only [readInteger, read, h, ok_bind]
    rfl
  have hrange : (0 : Int) ≤ n ∧ (n : Int) < Version.bound :=
    ⟨Int.natCast_nonneg n, Int.ofNat_lt.2 hn⟩
  rw [readVersionNumber, hread, ok_bind, if_pos hrange, Int.toNat_natCast]
  rfl

end Checkpoint

namespace Parameters

def entries (p : Parameters) : List (String × StoredValue) :=
  (tagField, .text p.tag) :: (majorField, .integer p.version.major) ::
    (minorField, .integer p.version.minor) :: p.fields

theorem save_eq_writeAll (p : Parameters) (c : Checkpoint) : p.save c = c.writeAll p.entries := rfl

/-- Whatever a checkpoint holds, what is saved into it is found there. -/
theorem get?_save {p : Parameters} (h : (p.entries.map Prod.fst).Nodup) (c : Checkpoint)
    {name : String} {value : StoredValue} (hmem : (name, value) ∈ p.entries) :
    (p.save c).get? name = some value :=
  p.save_eq_writeAll c ▸ Checkpoint.get?_writeAll h c hmem

end Parameters

theorem Action.nodup_entries {a : Action} {p : Parameters} (h : a.parameters? = some p) :
    (p.entries.map Prod.fst).Nodup := by
  cases a with
  | device k =>
      obtain rfl := Option.some.inj h
      change ["tag", "version.major", "version.minor", "opcode"].Nodup
      decide
  | constant t values =>
      obtain rfl := Option.some.inj h
      change ["tag", "version.major", "version.minor", "field_shape", "tensor_shape", "element",
        "values"].Nodup
      decide
  | sensor | actuator | host | recurrence => cases h

theorem Action.version_eq {a : Action} {p : Parameters} (h : a.parameters? = some p) :
    p.version = storedVersion := by
  cases a with
  | device | constant =>
      rw [← Option.some.inj h]
  | sensor | actuator | host | recurrence => cases h

theorem Action.get?_save {a : Action} {p : Parameters} (h : a.parameters? = some p)
    (c : Checkpoint) {name : String} {value : StoredValue} (hmem : (name, value) ∈ p.fields) :
    (p.save c).get? name = some value := by
  refine p.get?_save (nodup_entries h) c ?_
  exact List.mem_cons_of_mem _ (List.mem_cons_of_mem _ (List.mem_cons_of_mem _ hmem))

theorem Version.check_self (v : Version) (kernel : String) : v.check v kernel = .ok () := by
  simp [Version.check, Version.accepts]

/-- A registry hands a saved kernel to the restorer of its tag, whatever the checkpoint held before. -/
theorem RestoreRegistry.restore_save {r : RestoreRegistry} {a : Action} {p : Parameters}
    {restorer : Restorer} (h : a.parameters? = some p)
    (hentry : r.entries.lookup p.tag = some (storedVersion, restorer)) (prior : Checkpoint)
    (c : Circuit Action) (inputs : List RegisterId) :
    r.restore (p.save prior) c inputs = restorer (p.save prior) c inputs := by
  have hread : ∀ name value, (name, value) ∈ p.entries → (p.save prior).get? name = some value :=
    fun name value hmem => p.get?_save (Action.nodup_entries h) prior hmem
  have hversion := Action.version_eq h
  have htag := Checkpoint.readText_eq_ok
    (hread Parameters.tagField (.text p.tag) (by simp [Parameters.entries]))
  have hmajor := Checkpoint.readVersionNumber_eq_ok (n := p.version.major)
    (hread Parameters.majorField _ (by simp [Parameters.entries])) (hversion ▸ by decide)
  have hminor := Checkpoint.readVersionNumber_eq_ok (n := p.version.minor)
    (hread Parameters.minorField _ (by simp [Parameters.entries])) (hversion ▸ by decide)
  simp only [restore, htag, liftM_ok_bind, hentry, hmajor, hminor, hversion, Version.check_self]

section Extents

/-- A character goes into the first piece, unless it is a comma, which starts a new one. -/
theorem commaPieces_cons {c : Char} {s piece : List Char} {rest : List (List Char)}
    (h : commaPieces s = piece :: rest) : commaPieces (c :: s) =
      if c = ',' then [] :: piece :: rest else (c :: piece) :: rest := by
  rw [commaPieces] at h
  rw [commaPieces, List.foldr_cons, h]

theorem commaPieces_of_notMem {s : List Char} (h : ',' ∉ s) : commaPieces s = [s] := by
  induction s with
  | nil => rfl
  | cons c s ih =>
      rw [List.mem_cons, not_or] at h
      rw [commaPieces_cons (ih h.2), if_neg (Ne.symm h.1)]

theorem commaPieces_ne_nil (s : List Char) : commaPieces s ≠ [] := by
  cases s with
  | nil => exact List.cons_ne_nil _ _
  | cons c s =>
      rw [commaPieces, List.foldr_cons]
      split
      · exact List.cons_ne_nil _ _
      · split <;> exact List.cons_ne_nil _ _

theorem commaPieces_append {piece : List Char} (h : ',' ∉ piece) (rest : List Char) :
    commaPieces (piece ++ ',' :: rest) = piece :: commaPieces rest := by
  induction piece with
  | nil =>
      obtain ⟨first, others, heq⟩ := List.exists_cons_of_ne_nil (commaPieces_ne_nil rest)
      rw [List.nil_append, commaPieces_cons heq, if_pos rfl, heq]
  | cons c piece ih =>
      rw [List.mem_cons, not_or] at h
      rw [List.cons_append, commaPieces_cons (ih h.2), if_neg (Ne.symm h.1)]

theorem comma_notMem_decimal (n : Nat) : ',' ∉ (Text.decimal n).toList := by
  rw [Text.toList_decimal]
  exact fun h => absurd (Text.isDigit_of_mem_toDigits h) (by decide)

theorem commaPieces_joined (n : Nat) (ns : List Nat) :
    commaPieces (Text.joined "," (n :: ns)).toList =
      (n :: ns).map fun m => (Text.decimal m).toList := by
  induction ns generalizing n with
  | nil => exact commaPieces_of_notMem (comma_notMem_decimal n)
  | cons m ns ih =>
      have htext : (Text.joined "," (n :: m :: ns)).toList =
          (Text.decimal n).toList ++ ',' :: (Text.joined "," (m :: ns)).toList := by
        rw [Text.joined, List.map_cons, List.map_cons, String.intercalate_cons_cons,
          String.toList_append, String.toList_append, List.append_assoc]
        rfl
      rw [htext, commaPieces_append (comma_notMem_decimal n), ih]
      rfl

theorem mapM_size?_decimal {ns : List Nat} (h : ∀ n ∈ ns, n < sizeBound) :
    (ns.map fun n => (Text.decimal n).toList).mapM Text.size? = some ns := by
  induction ns with
  | nil => rfl
  | cons n ns ih =>
      rw [List.forall_mem_cons] at h
      rw [List.map_cons, List.mapM_cons, Text.size?_decimal h.1, ih h.2]
      rfl

theorem readExtents_storedExtents {s : Shape} (h : ∀ e ∈ s.extents, e < sizeBound) (name : String) :
    readExtents name (storedExtents s) = .ok s := by
  obtain ⟨extents⟩ := s
  cases extents with
  | nil => rfl
  | cons e extents =>
      have hpieces : (commaPieces (Text.joined "," (e :: extents)).toList).filter (!·.isEmpty) =
          (e :: extents).map fun n => (Text.decimal n).toList := by
        rw [commaPieces_joined, List.filter_eq_self]
        intro piece hpiece
        obtain ⟨n, -, rfl⟩ := List.mem_map.1 hpiece
        rw [Text.toList_decimal, List.isEmpty_eq_false_iff.2 Nat.toDigits_ne_nil]
        rfl
      rw [readExtents, storedExtents, hpieces, mapM_size?_decimal h]

theorem Shape.extent_le_points {s : Shape} (h : ∀ e ∈ s.extents, 0 < e) {e : Nat}
    (he : e ∈ s.extents) : e ≤ s.points := by
  have hdvd : e ∣ s.points := by
    rw [Shape.points, ← List.prod_eq_foldr]
    exact List.dvd_prod he
  exact Nat.le_of_dvd (Shape.points_pos h) hdvd

theorem FieldType.extents_lt_of_words? {t : FieldType} {n : Nat} (h : t.words? = .ok n) :
    (∀ e ∈ t.field.extents, e < sizeBound) ∧ ∀ e ∈ t.tensor.extents, e < sizeBound := by
  obtain ⟨_, hlayout, -⟩ := bind_eq_ok_iff.1 h
  obtain ⟨_, hpoints, hlayout⟩ := bind_eq_ok_iff.1 hlayout
  obtain ⟨_, helements, -⟩ := bind_eq_ok_iff.1 hlayout
  have hpointsLt := (checked_eq_ok_iff.1 hpoints).1
  have helementsLt := (checked_eq_ok_iff.1 helements).1
  exact ⟨fun e he => Nat.lt_of_le_of_lt (Shape.extent_le_points t.field_pos he) hpointsLt,
    fun e he => Nat.lt_of_le_of_lt (Shape.extent_le_points t.tensor_pos he) helementsLt⟩

end Extents

end FieldCircuit
