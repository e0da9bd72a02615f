import KernelLabs.Kyouko.Device
import KernelLabs.Library.StoreLog

/-! The DMA buffers as the user program fills them: a packed header in the first word,
then six words a vertex. A `float` is its 32 bits throughout. -/
namespace KernelLabs.VertexBuffer
open Buffer StoreLog

structure DmaHdr where
  address : BitVec 14
  count : BitVec 10
  opcode : BitVec 8
  deriving DecidableEq, Repr

/- The fields are allocated from the low bits up. -/
def DmaHdr.word (hdr : DmaHdr) : BitVec 32 := hdr.opcode ++ hdr.count ++ hdr.address
def hdrOf (word : BitVec 32) : DmaHdr :=
  ⟨word.extractLsb' 0 14, word.extractLsb' 14 10, word.extractLsb' 24 8⟩

/- What is at `u_dma_bufferAddress`, in words from there on. -/
structure DmaInfo where
  uDmaBufferAddress : Nat → BitVec 32
  dmaHdr : DmaHdr

structure Vertex where
  xyz : Vector (BitVec 32) 3
  rgb : Vector (BitVec 32) 3
  deriving DecidableEq, Repr

def floatToUint (v : BitVec 32) : BitVec 32 := v

/- The stores of one call, at indices of an `unsigned int`. -/
def pointStores (i : BitVec 32) (xyz rgb : Vector (BitVec 32) 3) : List (Nat × BitVec 32) :=
  [((i * 6 + 1).toNat, floatToUint rgb[0]),
    ((i * 6 + 2).toNat, floatToUint rgb[1]),
    ((i * 6 + 3).toNat, floatToUint rgb[2]),
    ((i * 6 + 4).toNat, floatToUint xyz[0]),
    ((i * 6 + 5).toNat, floatToUint xyz[1]),
    ((i * 6 + 6).toNat, floatToUint xyz[2])]

def uWriteDmaBufferPoint (buffs : Nat → DmaInfo) (index i : BitVec 32)
    (xyz rgb : Vector (BitVec 32) 3) : Nat → DmaInfo :=
  let buff := buffs index.toNat
  store buffs index.toNat {buff with
    uDmaBufferAddress := storeAll buff.uDmaBufferAddress (pointStores i xyz rgb)}

def writeHdr (buffs : Nat → DmaInfo) (index : BitVec 32) (hdr : DmaHdr) : Nat → DmaInfo :=
  store buffs index.toNat ⟨store (buffs index.toNat).uDmaBufferAddress 0 hdr.word, hdr⟩

/- A vertex and the index it is written at. -/
abbrev PointCall := Vertex × Nat

def writePoints (buffs : Nat → DmaInfo) (index : BitVec 32) (calls : List PointCall) : Nat → DmaInfo :=
  calls.foldl (fun buffs c => uWriteDmaBufferPoint buffs index (BitVec.ofNat 32 c.2) c.1.xyz c.1.rgb) buffs

def fill (buffs : Nat → DmaInfo) (index : BitVec 32) (hdr : DmaHdr) (calls : List PointCall) :
    Nat → DmaInfo :=
  writePoints (writeHdr buffs index hdr) index calls

/- What `main` does with a buffer, `TRIANGLE_NUM` being the argument: its header, its
calls, and the count it passes to `START_DMA`. -/
def mainHdr (triangleNum : Nat) : DmaHdr := ⟨0x1045, BitVec.ofNat 10 (3 * triangleNum), 0x14⟩
def mainCalls (triangleNum : Nat) (points : Nat → Vertex) : List PointCall :=
  (List.range triangleNum).flatMap fun j =>
    [(points (3 * j + 0), 3 * j + 0), (points (3 * j + 1), 3 * j + 1), (points (3 * j + 2), 3 * j + 2)]
def startCount (triangleNum : Nat) : Nat := 18 * triangleNum + 1

/- The reader's side: as many vertices as the header says, six words each. -/
def readPoint (words : Nat → BitVec 32) (i : Nat) : Vertex where
  xyz := #v[words (6 * i + 4), words (6 * i + 5), words (6 * i + 6)]
  rgb := #v[words (6 * i + 1), words (6 * i + 2), words (6 * i + 3)]
def readPoints (words : Nat → BitVec 32) : List Vertex :=
  (List.range (hdrOf (words 0)).count.toNat).map (readPoint words)

/- All stores of a fill, in order. -/
def callStores (c : PointCall) : List (Nat × BitVec 32) :=
  pointStores (BitVec.ofNat 32 c.2) c.1.xyz c.1.rgb
def fillStores (hdr : DmaHdr) (calls : List PointCall) : List (Nat × BitVec 32) :=
  (0, hdr.word) :: calls.flatMap callStores

/- The buffers after a fill of one of them with `vertices`. -/
structure Filled (old new : Nat → DmaInfo) (index : BitVec 32) (hdr : DmaHdr) (calls : List PointCall)
    (vertices : List Vertex) : Prop where
  accesses : ∀ s ∈ fillStores hdr calls, 4 * s.1 + 4 ≤ Device.dmaBytes
  memory : (new index.toNat).uDmaBufferAddress =
    storeAll (old index.toNat).uDmaBufferAddress (fillStores hdr calls)
  header : hdrOf ((new index.toNat).uDmaBufferAddress 0) = hdr
  count : hdr.count.toNat = vertices.length
  points : readPoints (new index.toNat).uDmaBufferAddress = vertices
  defined : ((fillStores hdr calls).map Prod.fst).Perm (List.range (6 * vertices.length + 1))
  rest : ∀ w, 6 * vertices.length + 1 ≤ w →
    (new index.toNat).uDmaBufferAddress w = (old index.toNat).uDmaBufferAddress w
  others : ∀ i, i ≠ index.toNat → new i = old i

/- `main`'s round for a buffer is such a fill, in order, with the first words it defines
passed on. -/
structure MainRound (triangleNum : Nat) (points : Nat → Vertex) (vertices : List Vertex) : Prop where
  header : mainHdr triangleNum = ⟨0x1045, BitVec.ofNat 10 vertices.length, 0x14⟩
  calls : mainCalls triangleNum points = vertices.zipIdx
  passed : startCount triangleNum = 6 * vertices.length + 1

theorem hdrOfWord (hdr : DmaHdr) : hdrOf hdr.word = hdr := by
  have address : hdr.word.extractLsb' 0 14 = hdr.address := BitVec.extractLsb'_append_eq_right
  have count : hdr.word.extractLsb' 14 10 = hdr.count := by
    unfold DmaHdr.word
    rw [BitVec.extractLsb'_append_eq_of_le (by decide)]
    exact BitVec.extractLsb'_append_eq_right
  have opcode : hdr.word.extractLsb' 24 8 = hdr.opcode := by
    unfold DmaHdr.word
    rw [BitVec.extractLsb'_append_eq_of_le (by decide)]
    exact BitVec.extractLsb'_append_eq_left
  rw [hdrOf, address, count, opcode]

theorem writePointsStores (buffs : Nat → DmaInfo) (index : BitVec 32) (calls : List PointCall) :
    writePoints buffs index calls = store buffs index.toNat
      {buffs index.toNat with
        uDmaBufferAddress := storeAll (buffs index.toNat).uDmaBufferAddress (calls.flatMap callStores)} := by
  induction calls generalizing buffs with
  | nil => exact (storeOld buffs index.toNat).symm
  | cons c calls ih =>
    have rest := ih (uWriteDmaBufferPoint buffs index (BitVec.ofNat 32 c.2) c.1.xyz c.1.rgb)
    rw [uWriteDmaBufferPoint, storeSame, storeTwice] at rest
    rw [List.flatMap_cons, storeAllAppend]
    exact rest

theorem fillExact (buffs : Nat → DmaInfo) (index : BitVec 32) (hdr : DmaHdr) (calls : List PointCall) :
    fill buffs index hdr calls = store buffs index.toNat
      ⟨storeAll (buffs index.toNat).uDmaBufferAddress (fillStores hdr calls), hdr⟩ := by
  rw [fill, writePointsStores, writeHdr, storeSame, storeTwice, fillStores, storeAllCons]

theorem wordIndex {i : Nat} {k : BitVec 32} (small : 6 * i + k.toNat < 2 ^ 32) :
    (BitVec.ofNat 32 i * 6 + k).toNat = 6 * i + k.toNat := by
  have product : (BitVec.ofNat 32 i * 6).toNat = 6 * i := by
    have factor : (BitVec.ofNat 32 i).toNat = i := Nat.mod_eq_of_lt (by omega)
    rw [BitVec.toNat_mul, factor, Nat.mul_comm 6 i]
    exact Nat.mod_eq_of_lt (show i * 6 < 2 ^ 32 by omega)
  rw [BitVec.toNat_add, product]
  exact Nat.mod_eq_of_lt small

/- The index arithmetic does not wrap for any vertex the header can count. -/
theorem callStoresAt {c : PointCall} (small : 6 * c.2 + 6 < 2 ^ 32) : callStores c =
    [(6 * c.2 + 1, c.1.rgb[0]), (6 * c.2 + 2, c.1.rgb[1]), (6 * c.2 + 3, c.1.rgb[2]),
      (6 * c.2 + 4, c.1.xyz[0]), (6 * c.2 + 5, c.1.xyz[1]), (6 * c.2 + 6, c.1.xyz[2])] := by
  unfold callStores pointStores floatToUint
  rw [wordIndex (k := 1) (by simp; omega), wordIndex (k := 2) (by simp; omega),
    wordIndex (k := 3) (by simp; omega), wordIndex (k := 4) (by simp; omega),
    wordIndex (k := 5) (by simp; omega), wordIndex (k := 6) small]
  rfl

/- Vertex by vertex the words follow each other, the first six behind word `6 * first`. -/
theorem vertexIndices {vertices : List Vertex} {first : Nat}
    (small : 6 * (first + vertices.length) < 2 ^ 32) :
    ((vertices.zipIdx first).flatMap callStores).map Prod.fst =
      List.range' (6 * first + 1) (6 * vertices.length) := by
  induction vertices generalizing first with
  | nil => rfl
  | cons v vertices ih =>
    rw [List.length_cons] at small
    have rest : ((vertices.zipIdx (first + 1)).flatMap callStores).map Prod.fst =
        List.range' (6 * (first + 1) + 1) (6 * vertices.length) := ih (by omega)
    have here : (callStores (v, first)).map Prod.fst = List.range' (6 * first + 1) 6 := by
      rw [callStoresAt (show 6 * first + 6 < 2 ^ 32 by omega)]
      rfl
    have next : 6 * (first + 1) + 1 = 6 * first + 1 + 6 := by omega
    have total : 6 * (vertices.length + 1) = 6 + 6 * vertices.length := by omega
    rw [List.zipIdx_cons, List.flatMap_cons, List.map_append, here, rest, List.length_cons, next, total]
    exact List.range'_append_1

section Fill
variable {hdr : DmaHdr} {calls : List PointCall} {vertices : List Vertex}

/- In whatever order the calls are made, each of the first words is stored to once. -/
theorem fillIndices (all : calls.Perm vertices.zipIdx) (small : 6 * vertices.length < 2 ^ 32)
    (hdr : DmaHdr) :
    ((fillStores hdr calls).map Prod.fst).Perm (List.range (6 * vertices.length + 1)) := by
  have points := (all.flatMap_right callStores).map Prod.fst
  rw [vertexIndices (by omega)] at points
  rw [fillStores, List.map_cons, List.range_eq_range', List.range'_succ]
  exact points.cons 0

theorem fillOnce (all : calls.Perm vertices.zipIdx) (small : 6 * vertices.length < 2 ^ 32)
    (hdr : DmaHdr) : ((fillStores hdr calls).map Prod.fst).Nodup :=
  (fillIndices all small hdr).nodup_iff.mpr List.nodup_range

theorem fillIndexIff (all : calls.Perm vertices.zipIdx) (small : 6 * vertices.length < 2 ^ 32)
    (hdr : DmaHdr) (w : Nat) :
    (∃ s ∈ fillStores hdr calls, s.1 = w) ↔ w < 6 * vertices.length + 1 := by
  rw [← List.mem_map, (fillIndices all small hdr).mem_iff, List.mem_range]

theorem threeWords (x : Vector (BitVec 32) 3) : #v[x[0], x[1], x[2]] = x := by
  ext i inside
  match i with
  | 0 => rfl
  | 1 => rfl
  | 2 => rfl

/- A vertex whose call is among them is read back. -/
theorem pointRead (once : ((fillStores hdr calls).map Prod.fst).Nodup) {c : PointCall}
    (called : c ∈ calls) (small : 6 * c.2 + 6 < 2 ^ 32) (mem : Nat → BitVec 32) :
    readPoint (storeAll mem (fillStores hdr calls)) c.2 = c.1 := by
  have read : ∀ s ∈ callStores c, storeAll mem (fillStores hdr calls) s.1 = s.2 := by
    intro s own
    have stored : s ∈ fillStores hdr calls :=
      List.mem_cons_of_mem _ (List.mem_flatMap.mpr ⟨c, called, own⟩)
    exact storeAllOnce once stored mem
  rw [callStoresAt small] at read
  simp only [List.forall_mem_cons] at read
  obtain ⟨r0, r1, r2, x0, x1, x2, _⟩ := read
  rw [readPoint, r0, r1, r2, x0, x1, x2, threeWords, threeWords]

end Fill

theorem mainCallsInOrder (triangleNum : Nat) (points : Nat → Vertex) :
    mainCalls triangleNum points = ((List.range (3 * triangleNum)).map points).zipIdx := by
  induction triangleNum with
  | zero => rfl
  | succ n ih =>
    have before : mainCalls (n + 1) points = mainCalls n points ++
        [(points (3 * n + 0), 3 * n + 0), (points (3 * n + 1), 3 * n + 1),
          (points (3 * n + 2), 3 * n + 2)] := by
      rw [mainCalls, List.range_succ, List.flatMap_append, List.flatMap_singleton]
      rfl
    rw [before, ih, Nat.mul_succ, List.range_succ, List.range_succ, List.range_succ]
    simp [List.zipIdx_append]

theorem mainRound (triangleNum : Nat) (points : Nat → Vertex) :
    MainRound triangleNum points ((List.range (3 * triangleNum)).map points) where
  header := by rw [List.length_map, List.length_range, mainHdr]
  calls := mainCallsInOrder triangleNum points
  passed := by
    rw [List.length_map, List.length_range, startCount]
    omega

/- Whatever the header, as long as its count is that of the vertices. -/
theorem fillFilled (buffs : Nat → DmaInfo) (index : BitVec 32) {hdr : DmaHdr} {calls : List PointCall}
    {vertices : List Vertex} (count : hdr.count.toNat = vertices.length)
    (all : calls.Perm vertices.zipIdx) :
    Filled buffs (fill buffs index hdr calls) index hdr calls vertices := by
  have few : hdr.count.toNat < 1024 := hdr.count.isLt
  have small : 6 * vertices.length < 2 ^ 32 := by omega
  have once := fillOnce all small hdr
  have indices := fillIndexIff all small hdr
  have memory : (fill buffs index hdr calls index.toNat).uDmaBufferAddress =
      storeAll (buffs index.toNat).uDmaBufferAddress (fillStores hdr calls) := by
    rw [fillExact, storeSame]
  have header : hdrOf ((fill buffs index hdr calls index.toNat).uDmaBufferAddress 0) = hdr := by
    rw [memory, storeAllOnce once List.mem_cons_self, hdrOfWord]
  refine ⟨?_, memory, header, count, ?_, fillIndices all small hdr, ?_, ?_⟩
  · intro s stored
    have low := (indices s.1).mp ⟨s, stored, rfl⟩
    unfold Device.dmaBytes
    omega
  · rw [readPoints, header, count, memory]
    apply List.ext_getElem
    · rw [List.length_map, List.length_range]
    · intro i _ inside
      have called : (vertices[i], i) ∈ calls := by
        rw [all.mem_iff, List.mk_mem_zipIdx_iff_getElem?]
        exact List.getElem?_eq_getElem inside
      rw [List.getElem_map, List.getElem_range]
      exact pointRead once called (show 6 * i + 6 < 2 ^ 32 by omega) _
  · intro w past
    rw [memory]
    apply storeAllOther
    intro s stored same
    have low := (indices w).mp ⟨s, stored, same⟩
    omega
  · intro i other
    rw [fillExact, storeOther other]

theorem filledBufferDecodes (buffs : Nat → DmaInfo) (index : BitVec 32) (address : BitVec 14)
    (opcode : BitVec 8) (vertices : List Vertex) (calls : List PointCall)
    (few : vertices.length ≤ 1023) (all : calls.Perm vertices.zipIdx) :
    let hdr : DmaHdr := ⟨address, BitVec.ofNat 10 vertices.length, opcode⟩
    Filled buffs (fill buffs index hdr calls) index hdr calls vertices ∧
      ∀ triangleNum points, vertices = (List.range (3 * triangleNum)).map points →
        MainRound triangleNum points vertices := by
  intro hdr
  have count : hdr.count.toNat = vertices.length := Nat.mod_eq_of_lt (by omega)
  refine ⟨fillFilled buffs index count all, ?_⟩
  rintro triangleNum points rfl
  exact mainRound triangleNum points

/- As many vertices as `main` writes, last one first, over stale words. -/
def staleBuffs : Nat → DmaInfo := fun _ => ⟨fun _ => 0xFFFFFFFF, ⟨0, 0, 0⟩⟩
def someVertices : List Vertex :=
  (List.range 300).map fun i => ⟨#v[BitVec.ofNat 32 i, 1, 2], #v[3, 4, BitVec.ofNat 32 i]⟩

theorem reversedDecodes : someVertices.length ≤ 1023 ∧
    Filled staleBuffs (fill staleBuffs 7 ⟨0x1045, 300, 0x14⟩ someVertices.zipIdx.reverse) 7
      ⟨0x1045, 300, 0x14⟩ someVertices.zipIdx.reverse someVertices := by
  have length : someVertices.length = 300 := by rw [someVertices, List.length_map, List.length_range]
  have few : someVertices.length ≤ 1023 := by omega
  have decodes := (filledBufferDecodes staleBuffs 7 0x1045 0x14 someVertices _ few
    (List.reverse_perm _)).1
  rw [length] at decodes
  exact ⟨few, decodes⟩

end KernelLabs.VertexBuffer
