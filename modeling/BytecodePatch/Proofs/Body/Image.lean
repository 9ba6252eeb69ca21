import BytecodePatch.Body.Image
import BytecodePatch.Proofs.Code.Draft

/-!
# Images and bodies

An image can be loaded exactly if its operands fit its opcodes and its references are
positions of its own. The slots of a loaded body are the positions of the image, so that
flattening the body gives the image back. The other way round the slots of a body are of no
account: its image says for each reference only where it stands.
-/

namespace BytecodePatch

namespace Image

/-- What an image needs to be loaded. -/
def Loadable (image : Image) : Prop :=
  ∀ instr ∈ image.instrs, instr.HasShape ∧ ∀ ref ∈ instr.refs, ref.toNat < image.length

/-- The handle that a position becomes in code with this identity. -/
def handleOf (tag : Nat) (ref : UInt32) : Handle :=
  ⟨tag, ref.toNat⟩

/-- The code that an image becomes, apart from all checks. -/
def codeOf (image : Image) (tag : Nat) : Code :=
  Draft.codeOf tag (image.instrs.map (Instr.map (handleOf tag)))

/-! ## Loading -/

theorem validate_eq_ok_iff {image : Image} :
    image.validate = .ok () ↔
      ∀ instr ∈ image.instrs, ∀ ref ∈ instr.refs, ref.toNat < image.length := by
  unfold validate
  dsimp only
  split
  · rename_i position ref found
    simp only [reduceCtorEq, false_iff]
    intro inside
    obtain ⟨⟨instr, place⟩, indexed, outside⟩ := List.exists_of_findSome?_eq_some found
    obtain ⟨first, firstFound, _⟩ := Option.map_eq_some_iff.mp outside
    have far := List.find?_some firstFound
    have near := inside instr (List.fst_mem_of_mem_zipIdx indexed) first
      (List.mem_of_find?_eq_some firstFound)
    simp only [decide_eq_true_eq] at far
    omega
  · rename_i none
    simp only [true_iff]
    intro instr member ref refMember
    obtain ⟨position, bound, rfl⟩ := List.mem_iff_getElem.mp member
    have indexed : (image.instrs[position], position) ∈ image.instrs.zipIdx := by
      rw [List.mem_zipIdx_iff_getElem?]
      exact List.getElem?_eq_getElem bound
    have clean := List.findSome?_eq_none_iff.mp none _ indexed
    have inside := List.find?_eq_none.mp (Option.map_eq_none_iff.mp clean) ref refMember
    simpa using inside

/-- An image is refused for a reference past its end. -/
theorem exists_of_validate_eq_error
    {image : Image} {rejection : Rejection} (refused : image.validate = .error rejection) :
    ∃ position ref instr,
      rejection = .targetOutOfRange position ref ∧ image.instrs[position]? = some instr ∧
        ref ∈ instr.refs ∧ image.length ≤ ref.toNat := by
  unfold validate at refused
  dsimp only at refused
  split at refused
  · rename_i position ref found
    cases refused
    obtain ⟨⟨instr, place⟩, indexed, outside⟩ := List.exists_of_findSome?_eq_some found
    obtain ⟨first, firstFound, equal⟩ := Option.map_eq_some_iff.mp outside
    cases equal
    have far := List.find?_some firstFound
    refine ⟨_, _, instr, rfl, List.mem_zipIdx_iff_getElem?.mp indexed,
      List.mem_of_find?_eq_some firstFound, ?_⟩
    simpa using far
  · cases refused

/-- Loading an instruction needs its shape only. -/
private theorem load_step_eq (tag : Nat) (instr : Instr UInt32) (loaded : Instr Handle) :
    (do
        instr.checkShape
        return instr.map fun ref => (⟨tag, ref.toNat⟩ : Handle) :
        Except Rejection (Instr Handle)) = .ok loaded ↔
      instr.HasShape ∧ loaded = instr.map (handleOf tag) := by
  rw [bind_eq_ok_iff]
  constructor
  · rintro ⟨⟨⟩, fits, answered⟩
    exact ⟨Instr.checkShape_eq_ok_iff.mp fits, (pure_eq_ok_iff.mp answered).symm⟩
  · rintro ⟨fits, rfl⟩
    exact ⟨(), Instr.checkShape_eq_ok_iff.mpr fits, rfl⟩

theorem verify_codeOf {image : Image} (tag : Nat)
    (inside : ∀ instr ∈ image.instrs, ∀ ref ∈ instr.refs, ref.toNat < image.length) :
    (image.codeOf tag).verify = .ok () := by
  apply Code.verify_eq_ok_iff.mpr
  intro line member ref refMember
  have instrMember : line.instr ∈ image.instrs.map (Instr.map (handleOf tag)) := by
    rw [← Draft.map_instr_lines_codeOf tag (image.instrs.map _)]
    exact List.mem_map_of_mem member
  obtain ⟨instr, oldMember, instrEq⟩ := List.mem_map.mp instrMember
  rw [Line.refs, ← instrEq, Instr.refs_map] at refMember
  obtain ⟨position, positionMember, rfl⟩ := List.mem_map.mp refMember
  rw [codeOf, Draft.contains_codeOf_iff, List.length_map]
  exact ⟨rfl, inside instr oldMember position positionMember⟩

/-- An image loads exactly if it is loadable, and then it becomes this one body. -/
theorem load_eq_ok_iff {image : Image} {tag : Nat} {body : Body} :
    image.load tag = .ok body ↔
      image.Loadable ∧ body = ⟨image.args, image.locals, image.codeOf tag⟩ := by
  unfold load
  rw [bind_eq_ok_iff]
  constructor
  · rintro ⟨⟨⟩, valid, rest⟩
    obtain ⟨loaded, shaped, checked⟩ := bind_eq_ok_iff.mp rest
    obtain ⟨shapes, rfl⟩ := (mapM_eq_ok_iff_of_step (load_step_eq tag)).mp shaped
    obtain ⟨⟨⟩, _, answered⟩ := bind_eq_ok_iff.mp checked
    have inside := validate_eq_ok_iff.mp valid
    exact ⟨fun instr member => ⟨shapes instr member, inside instr member⟩,
      (pure_eq_ok_iff.mp answered).symm⟩
  · rintro ⟨loadable, rfl⟩
    have inside := fun instr member => (loadable instr member).2
    refine ⟨(), validate_eq_ok_iff.mpr inside, bind_eq_ok_iff.mpr ?_⟩
    have shapes := fun instr member => (loadable instr member).1
    have shaped := (mapM_eq_ok_iff_of_step (load_step_eq tag)).mpr ⟨shapes, rfl⟩
    exact ⟨_, shaped, bind_eq_ok_iff.mpr ⟨(), verify_codeOf tag inside, rfl⟩⟩

theorem sound_of_load
    {image : Image} {tag : Nat} {body : Body}
    (loaded : image.load tag = .ok body) :
    body.code.Sound := by
  obtain ⟨loadable, rfl⟩ := load_eq_ok_iff.mp loaded
  have inside := fun instr member => (loadable instr member).2
  refine Draft.sound_codeOf ?_ (verify_codeOf tag inside)
  intro instr member
  obtain ⟨old, oldMember, rfl⟩ := List.mem_map.mp member
  exact (Instr.hasShape_map ..).mpr (loadable old oldMember).1

/-- A handle of a loaded body stands at the position that it was made of. -/
theorem positionOf_codeOf {image : Image} {tag : Nat} {ref : UInt32}
    (inside : ref.toNat < image.length) :
    (image.codeOf tag).positionOf (handleOf tag ref) = ref := by
  have placed : (image.codeOf tag).position? (handleOf tag ref) = some ref.toNat := by
    apply (Draft.wellLinked_codeOf ..).position?_eq_some_iff.mpr
    apply (Draft.handleAt?_codeOf_eq_some_iff ..).mpr
    exact ⟨by rw [List.length_map]; exact inside, rfl⟩
  rw [Code.positionOf, placed]
  exact UInt32.ofNat_toNat

end Image

namespace Body

variable {body : Body}

/-- The image that a body has if it passes its verification. -/
def image (body : Body) : Image :=
  ⟨body.args, body.locals, body.code.lines.map fun line => line.instr.map body.code.positionOf⟩

/-! ## Flattening -/

/-- The body of an image flattens to the image. -/
theorem flatten_of_load
    {image : Image} {tag : Nat}
    (loaded : image.load tag = .ok body) :
    body.flatten = .ok image := by
  obtain ⟨loadable, rfl⟩ := Image.load_eq_ok_iff.mp loaded
  have verified := Image.verify_codeOf tag fun instr member => (loadable instr member).2
  have instrs :
      (image.codeOf tag).lines.map (fun line => line.instr.map (image.codeOf tag).positionOf) =
        image.instrs := by
    calc
      (image.codeOf tag).lines.map (fun line => line.instr.map (image.codeOf tag).positionOf) =
          ((image.codeOf tag).lines.map Line.instr).map
            (Instr.map (image.codeOf tag).positionOf) := by
        rw [List.map_map]
        rfl
      _ = image.instrs.map fun instr =>
            (instr.map (Image.handleOf tag)).map (image.codeOf tag).positionOf := by
        rw [Image.codeOf, Draft.map_instr_lines_codeOf, List.map_map]
        rfl
      _ = image.instrs.map id := by
        apply List.map_congr_left
        intro instr member
        rw [Instr.map_map]
        calc
          instr.map ((image.codeOf tag).positionOf ∘ Image.handleOf tag) = instr.map id :=
            Instr.map_congr fun ref refMember =>
              Image.positionOf_codeOf ((loadable instr member).2 ref refMember)
          _ = instr := Instr.map_id instr
      _ = image.instrs := List.map_id _
  exact bind_eq_ok_iff.mpr ⟨(), verified, by rw [instrs]; rfl⟩

theorem flatten_of_verified (verified : body.code.verify = .ok ()) :
    body.flatten = .ok body.image :=
  bind_eq_ok_iff.mpr ⟨(), verified, rfl⟩

theorem flatten_of_sound (sound : body.code.Sound) : body.flatten = .ok body.image :=
  flatten_of_verified sound.verify_eq_ok

/-- The position that an image records for a live handle, in thirty-two bits. -/
theorem toNat_positionOf
    {code : Code} {handle : Handle} {position : Nat}
    (placed : code.position? handle = some position) :
    (code.positionOf handle).toNat = position % UInt32.size := by
  rw [Code.positionOf, placed]
  exact UInt32.toNat_ofNat'

/-- The image of sound code can be loaded, however the slots of the code lie. -/
theorem loadable_image (sound : body.code.Sound) : body.image.Loadable := by
  intro instr member
  obtain ⟨line, lineMember, rfl⟩ := List.mem_map.mp member
  refine ⟨(Instr.hasShape_map ..).mpr (sound.shape line lineMember), ?_⟩
  intro ref refMember
  rw [Instr.refs_map] at refMember
  obtain ⟨handle, handleMember, rfl⟩ := List.mem_map.mp refMember
  have live := sound.live line lineMember handle handleMember
  obtain ⟨position, found⟩ := List.mem_iff_getElem?.mp live
  have placed := sound.linked.position?_eq_some_iff.mpr found
  obtain ⟨bound, _⟩ := List.getElem?_eq_some_iff.mp found
  have lengthEq : body.image.length = body.code.handles.length := by
    simp [Image.length, image, Code.handles]
  rw [toNat_positionOf placed, lengthEq]
  exact Nat.lt_of_le_of_lt (Nat.mod_le ..) bound

/-- What a body and one loaded from its image have in common. `move` says which handle of the
loaded body stands for a handle of the original. -/
structure Reloaded (body loaded : Body) (move : Handle → Handle) : Prop where
  args : loaded.args = body.args
  locals : loaded.locals = body.locals
  instrs :
    loaded.code.lines.map Line.instr = body.code.lines.map fun line => line.instr.map move
  /-- A handle goes to the one at its position, of which an image records thirty-two bits. -/
  recorded :
    ∀ handle position,
      body.code.position? handle = some position →
        loaded.code.handleAt? (position % UInt32.size) = some (move handle)
  /-- So it goes to the one at the same position wherever an image can name the position. -/
  position :
    ∀ handle position,
      position < UInt32.size →
        body.code.position? handle = some position →
          loaded.code.handleAt? position = some (move handle)

theorem reloaded_of_load
    {loaded : Body} {tag : Nat}
    (sound : body.code.Sound)
    (reload : body.image.load tag = .ok loaded) :
    Reloaded body loaded (Image.handleOf tag ∘ body.code.positionOf) := by
  obtain ⟨_, rfl⟩ := Image.load_eq_ok_iff.mp reload
  have recorded :
      ∀ handle position,
        body.code.position? handle = some position →
          (body.image.codeOf tag).handleAt? (position % UInt32.size) =
            some (Image.handleOf tag (body.code.positionOf handle)) := by
    intro handle position placed
    have found := sound.linked.position?_eq_some_iff.mp placed
    obtain ⟨bound, _⟩ := List.getElem?_eq_some_iff.mp found
    have positionOf := toNat_positionOf placed
    apply (Draft.handleAt?_codeOf_eq_some_iff ..).mpr
    constructor
    · simp only [Code.handles, List.length_map] at bound
      simpa [image] using Nat.lt_of_le_of_lt (Nat.mod_le ..) bound
    · rw [Image.handleOf, positionOf]
  refine ⟨rfl, rfl, ?_, recorded, ?_⟩
  · rw [Image.codeOf, Draft.map_instr_lines_codeOf, image, List.map_map]
    apply List.map_congr_left
    intro line _
    exact Instr.map_map ..
  · intro handle position fits placed
    have found := recorded handle position placed
    rw [Nat.mod_eq_of_lt fits] at found
    exact found

end Body

end BytecodePatch
