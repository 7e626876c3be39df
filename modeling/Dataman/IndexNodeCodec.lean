import Dataman.IndexNodes

/-!
# Reading back a written page

A node that fits its page is read back as it was written, and reading a node looks at
nothing outside its page.
-/

namespace Dataman.IndexFile
open ByteFiles FixedWidthFields Checksum FailState

/-- A full node of the key length fits a page. -/
structure Context.Fits (ctx : Context) : Prop where
  room : 120+maxKeys*ctx.entrySize ≤ ctx.pageSize
  page_lt : ctx.pageSize < 2 ^ 16

/-- The nodes that the page format can hold. -/
structure NodeOk (ctx : Context) (n : Node) : Prop where
  entry_length : ∀ e∈n.entries,e.length = ctx.entrySize
  count_le : n.entries.length ≤ maxKeys
  leaf_children : n.leaf = true → n.children = []
  node_children : n.leaf = false → 0 < n.entries.length ∧ n.children.length = n.entries.length+1
  child_lt : ∀ c∈n.children,c < 2 ^ 64

variable {ctx : Context} {n : Node}

theorem payloadLength_le (entrySize : ℕ) (leaf : Bool) {k : ℕ} (hk : k ≤ maxKeys) :
    16+payloadLength entrySize leaf k ≤ 120+maxKeys*entrySize := by
  have hmul : k*entrySize ≤ maxKeys*entrySize := Nat.mul_le_mul_right _ hk
  unfold payloadLength
  simp only [maxKeys] at hk hmul ⊢
  split <;> omega

/-! ## Records of fixed size -/

theorem chunks_flatten (es : List Bytes) (size : ℕ) (rest : Bytes) (h : ∀ e∈es,e.length = size) :
    chunks es.length size (es.flatten++rest) = es := by
  induction es with
  | nil => rfl
  | cons e es ih =>
    have he : e.length = size := h e List.mem_cons_self
    simp only [List.length_cons,chunks,List.flatten_cons,List.append_assoc]
    rw [List.take_append_of_le_length (by omega),List.take_of_length_le (by omega),
      List.drop_append_of_le_length (by omega),List.drop_eq_nil_of_le (by omega),List.nil_append,
      ih fun e' he' => h e' (List.mem_cons_of_mem _ he')]

theorem length_chunks (n size : ℕ) (bs : Bytes) : (chunks n size bs).length = n := by
  induction n generalizing bs with
  | zero => rfl
  | succ n ih => simp [chunks,ih]

variable {size : ℕ}

theorem length_of_mem_chunks {n : ℕ} {bs e : Bytes} (hlen : n*size ≤ bs.length)
    (he : e∈chunks n size bs) : e.length = size := by
  induction n generalizing bs with
  | zero => simp [chunks] at he
  | succ n ih =>
    rw [Nat.succ_mul] at hlen
    rcases List.mem_cons.1 he with rfl | he
    · rw [List.length_take]
      omega
    · exact ih (by rw [List.length_drop]; omega) he

theorem length_flatten_of_forall {es : List Bytes} (h : ∀ e∈es,e.length = size) :
    es.flatten.length = es.length*size := by
  induction es with
  | nil => simp
  | cons e es ih =>
    rw [List.flatten_cons,List.length_append,ih fun e' he' => h e' (List.mem_cons_of_mem _ he'),
      h e List.mem_cons_self,List.length_cons,Nat.succ_mul,Nat.add_comm]

/-! ## The page of a node -/

theorem length_nodeHead (ctx : Context) (n : Node) : (nodeHead ctx n).length = 12 := by
  simp [nodeHead,nodeMagic,putU32]

theorem length_children_flatten (cs : List ℕ) : ((cs.map putU64).flatten).length = cs.length*8 := by
  have h8 : ∀ e∈cs.map putU64,e.length = 8 := by
    intro e he
    obtain ⟨c,-,rfl⟩ := List.mem_map.1 he
    simp [putU64]
  rw [length_flatten_of_forall h8,List.length_map]

theorem length_nodePayload (hn : NodeOk ctx n) :
    (nodePayload n).length = payloadLength ctx.entrySize n.leaf n.entries.length := by
  have he := length_flatten_of_forall hn.entry_length
  unfold nodePayload payloadLength
  cases hl : n.leaf with
  | true => simpa using he
  | false =>
    have hc := (hn.node_children hl).2
    simp only [Bool.false_eq_true,if_false,List.length_append,length_children_flatten,he,hc]

theorem nodeCrc_lt (ctx : Context) (n : Node) : nodeCrc ctx n < 2 ^ 32 := (indexV2Crc32 _).isLt

theorem length_pageBytes (hf : ctx.Fits) (hn : NodeOk ctx n) : (pageBytes ctx n).length = ctx.pageSize := by
  have hp := payloadLength_le ctx.entrySize n.leaf hn.count_le
  have hr := hf.room
  simp only [pageBytes,List.length_append,length_nodeHead,length_nodePayload hn,putU32,length_putBE,
    List.length_replicate]
  omega

/-- The page of a node as the reader sees it. -/
def diskNode (ctx : Context) (n : Node) : DiskNode :=
  ⟨if n.leaf then 1 else 0,n.entries.length,payloadLength ctx.entrySize n.leaf n.entries.length,
    nodeCrc ctx n,nodePayload n⟩

theorem decodeNode_diskNode (hn : NodeOk ctx n) : decodeNode ctx (diskNode ctx n) = some n := by
  obtain ⟨leaf,entries,children⟩ := n
  have hc := hn.count_le
  cases leaf with
  | true =>
    have hch : children = [] := hn.leaf_children rfl
    have hes := chunks_flatten entries ctx.entrySize [] hn.entry_length
    rw [List.append_nil] at hes
    simp [decodeNode,diskNode,nodePayload,guard_eq_ite,hc,hes,hch]
  | false =>
    obtain ⟨hpos,hlen⟩ := hn.node_children rfl
    simp only at hpos hlen hc
    have hcs : chunks (entries.length+1) 8 ((children.map putU64).flatten++entries.flatten) =
        children.map putU64 := by
      rw [← hlen,← List.length_map (f := putU64)]
      refine chunks_flatten _ 8 _ fun e he => ?_
      obtain ⟨c,-,rfl⟩ := List.mem_map.1 he
      simp [putU64]
    have hget : (children.map putU64).map getBE = children := by
      have hid : ∀ c∈children,(getBE ∘ putU64) c = id c := by
        intro c hc
        have hlt : c < 2 ^ 64 := hn.child_lt c hc
        rw [Function.comp_apply,putU64,getBE_putBE (by omega),id_eq]
      rw [List.map_map,List.map_congr_left hid,List.map_id]
    have hdrop : ((children.map putU64).flatten++entries.flatten).drop ((entries.length+1)*8) =
        entries.flatten := by
      have hl := length_children_flatten children
      rw [hlen] at hl
      rw [List.drop_append_of_le_length (by omega),List.drop_eq_nil_of_le (by omega),List.nil_append]
    have hes := chunks_flatten entries ctx.entrySize [] hn.entry_length
    rw [List.append_nil] at hes
    have hpos' : ¬ entries.length = 0 := by omega
    simp only [decodeNode,diskNode,nodePayload,Bool.false_eq_true,if_false,hcs,hdrop,hes,hget]
    simp [guard_eq_ite,hc,hpos']

/-! ## Reading inside a page -/

variable {f : Bytes} {o : ℕ} {d : DiskNode}

theorem indexV2ReadNode_eq_some :
    indexV2ReadNode f o = some d ↔ o ≤ int64Max ∧ ∃ header,readAt f o 16 = some header ∧
      slice header 0 4 = nodeMagic ∧ (header.getD 4 0).toNat / 2 = 0 ∧ getU32 header 8 ≤ 1024*1024 ∧
      readAt f (o+16) (getU32 header 8) = some d.payload ∧
      (indexV2Crc32 (slice header 0 12++d.payload)).toNat = getU32 header 12 ∧
      d = ⟨(header.getD 4 0).toNat,(header.getD 5 0).toNat,getU32 header 8,getU32 header 12,d.payload⟩ := by
  unfold indexV2ReadNode
  simp only [guard_eq_some,Option.bind_eq_bind,Option.bind_eq_some_iff,Option.pure_def,
    Option.some.injEq,exists_const]
  constructor
  · rintro ⟨ho,header,hh,hm,⟨hf,hl⟩,payload,hp,hc,rfl⟩
    exact ⟨ho,header,hh,hm,hf,hl,hp,hc,rfl⟩
  · rintro ⟨ho,header,hh,hm,hf,hl,hp,hc,hd⟩
    exact ⟨ho,header,hh,hm,⟨hf,hl⟩,d.payload,hp,hc,hd.symm⟩

variable {g : Bytes}

/-- Two files that agree on the bytes of a node agree on the node. -/
theorem indexV2ReadNode_frame (h : indexV2ReadNode f o = some d)
    (hag : ∀ off len bs,o ≤ off → off+len ≤ o+(16+d.payloadLength) →
      readAt f off len = some bs → readAt g off len = some bs) :
    indexV2ReadNode g o = some d := by
  obtain ⟨ho,header,hh,hm,hfl,hl,hp,hc,hd⟩ := indexV2ReadNode_eq_some.1 h
  have hlen : d.payloadLength = getU32 header 8 := by rw [hd]
  refine indexV2ReadNode_eq_some.2 ⟨ho,header,hag _ _ _ le_rfl (by omega) hh,hm,hfl,hl,?_,hc,hd⟩
  exact hag _ _ _ (by omega) (by omega) hp

theorem decodeNode_eq_some (h : decodeNode ctx d = some n) :
    d.keyCount ≤ maxKeys ∧ d.payloadLength = payloadLength ctx.entrySize n.leaf d.keyCount ∧
      n.leaf = decide (d.flags % 2 = 1) ∧ n.entries.length = d.keyCount ∧
      (n.leaf = true → n.children = [] ∧ n.entries = chunks d.keyCount ctx.entrySize d.payload) ∧
      (n.leaf = false → d.keyCount≠0 ∧ n.children = (chunks (d.keyCount+1) 8 d.payload).map getBE ∧
        n.entries = chunks d.keyCount ctx.entrySize (d.payload.drop ((d.keyCount+1)*8))) := by
  unfold decodeNode at h
  simp only [guard_eq_some,Option.bind_eq_bind,Option.bind_eq_some_iff,exists_const,not_or,not_and,
    not_not] at h
  obtain ⟨hk,⟨hz,hp⟩,h⟩ := h
  by_cases hl : d.flags % 2 = 1
  · rw [if_pos hl] at h
    cases h
    exact ⟨hk,by simpa [hl] using hp,by simp [hl],length_chunks _ _ _,fun _ => ⟨rfl,rfl⟩,by simp⟩
  · rw [if_neg hl] at h
    cases h
    exact ⟨hk,by simpa [hl] using hp,by simp [hl],length_chunks _ _ _,by simp,fun _ => ⟨hz hl,rfl,rfl⟩⟩

theorem v2LoadNode_eq_some :
    v2LoadNode ctx f o = some n ↔ ∃ d,indexV2ReadNode f o = some d ∧ decodeNode ctx d = some n := by
  simp only [v2LoadNode,Option.bind_eq_bind,Option.bind_eq_some_iff]

/-- A loaded node can be written back. -/
theorem nodeOk_of_load (h : v2LoadNode ctx f o = some n) : NodeOk ctx n := by
  obtain ⟨d,hd,hn⟩ := v2LoadNode_eq_some.1 h
  obtain ⟨hk,hp,-,hlen,hleaf,hnode⟩ := decodeNode_eq_some hn
  obtain ⟨-,header,-,-,-,-,hpay,-,hdeq⟩ := indexV2ReadNode_eq_some.1 hd
  have hplen : d.payload.length = payloadLength ctx.entrySize n.leaf d.keyCount := by
    rw [length_of_readAt hpay,← hp,hdeq]
  cases hl : n.leaf with
  | true =>
    obtain ⟨hch,hes⟩ := hleaf hl
    rw [hl,payloadLength,if_pos rfl] at hplen
    refine ⟨fun e he => ?_,hlen ▸ hk,fun _ => hch,fun h => by simp [hl] at h,by simp [hch]⟩
    exact length_of_mem_chunks hplen.ge (hes ▸ he)
  | false =>
    obtain ⟨hz,hch,hes⟩ := hnode hl
    rw [hl,payloadLength,if_neg Bool.false_ne_true] at hplen
    refine ⟨fun e he => ?_,hlen ▸ hk,fun h => by simp [hl] at h,fun _ => ⟨by omega,?_⟩,?_⟩
    · exact length_of_mem_chunks (by rw [List.length_drop]; omega) (hes ▸ he)
    · rw [hch,List.length_map,length_chunks,hlen]
    · intro c hc
      rw [hch] at hc
      obtain ⟨b,hb,rfl⟩ := List.mem_map.1 hc
      have := getBE_lt b
      rw [length_of_mem_chunks (by omega) hb] at this
      exact this

/-- Reading a node depends on its page only. -/
theorem v2LoadNode_frame (hf : ctx.Fits) (h : v2LoadNode ctx f o = some n)
    (hag : ∀ off len bs,o ≤ off → off+len ≤ o+ctx.pageSize →
      readAt f off len = some bs → readAt g off len = some bs) :
    v2LoadNode ctx g o = some n := by
  obtain ⟨d,hd,hn⟩ := v2LoadNode_eq_some.1 h
  obtain ⟨hk,hp,-⟩ := decodeNode_eq_some hn
  have hle := le_trans (payloadLength_le ctx.entrySize n.leaf hk) hf.room
  refine v2LoadNode_eq_some.2 ⟨d,indexV2ReadNode_frame hd fun off len bs h1 h2 => hag off len bs h1 ?_,hn⟩
  omega

/-! ## A page in a file -/

theorem indexV2ReadNode_page (hf : ctx.Fits) (hn : NodeOk ctx n) (ho : o ≤ int64Max) :
    indexV2ReadNode (writeAt f o (pageBytes ctx n)) o = some (diskNode ctx n) := by
  have hcount := hn.count_le
  have hlen := length_pageBytes hf hn
  have hpay := length_nodePayload hn
  have hle := le_trans (payloadLength_le ctx.entrySize n.leaf hcount) hf.room
  have hlt := hf.page_lt
  have hcrc := nodeCrc_lt ctx n
  have hhead := length_nodeHead ctx n
  -- the header is the first sixteen bytes of the page
  have hheader : slice (pageBytes ctx n) 0 16 = nodeHead ctx n++putU32 (nodeCrc ctx n) := by
    rw [pageBytes,List.append_assoc,slice_append_exact _ _ _ (by simp [hhead,putU32])]
  have hpayload : slice (pageBytes ctx n) 16 (payloadLength ctx.entrySize n.leaf n.entries.length) =
      nodePayload n := by
    rw [pageBytes,List.append_assoc,slice_append_right _ _ _ _ (by simp [hhead,putU32])]
    simp only [List.length_append,hhead,putU32,length_putBE]
    exact slice_append_exact _ _ _ hpay
  have h12 : slice (nodeHead ctx n++putU32 (nodeCrc ctx n)) 0 12 = nodeHead ctx n := slice_append_exact _ _ _ hhead
  have hcrc' : getU32 (nodeHead ctx n++putU32 (nodeCrc ctx n)) 12 = nodeCrc ctx n := by
    rw [getU32,slice_append_right _ _ _ _ (by omega),hhead,Nat.sub_self,
      slice_zero_of_length (by simp [putU32]),putU32,getBE_putBE (by omega)]
  have hplen : getU32 (nodeHead ctx n++putU32 (nodeCrc ctx n)) 8 =
      payloadLength ctx.entrySize n.leaf n.entries.length := by
    rw [getU32,slice_append_left _ _ _ _ (by omega),nodeHead,slice_append_right _ _ _ _ (by simp [nodeMagic])]
    simp only [nodeMagic,List.length_append,List.length_cons,List.length_nil,Nat.reduceAdd,Nat.sub_self]
    rw [slice_zero_of_length (by simp [putU32]),putU32,getBE_putBE (by omega)]
  have hmagic : slice (nodeHead ctx n++putU32 (nodeCrc ctx n)) 0 4 = nodeMagic := by
    simp only [nodeHead,List.append_assoc]
    exact slice_append_exact _ _ _ rfl
  have hflags : ((nodeHead ctx n++putU32 (nodeCrc ctx n)).getD 4 0).toNat = if n.leaf then 1 else 0 := by
    cases hl : n.leaf <;> simp [nodeHead,nodeMagic,hl]
  have hkeys : ((nodeHead ctx n++putU32 (nodeCrc ctx n)).getD 5 0).toNat = n.entries.length := by
    simp only [maxKeys] at hcount
    simp [nodeHead,nodeMagic]
    omega
  refine indexV2ReadNode_eq_some.2 ⟨ho,_,?_,hmagic,?_,?_,?_,?_,?_⟩
  · have := readAt_writeAt_inside f o (pageBytes ctx n) 0 16 (by omega)
    rwa [hheader] at this
  · rw [hflags]
    split <;> rfl
  · rw [hplen]
    omega
  · rw [hplen,readAt_writeAt_inside f o _ 16 _ (by omega),hpayload]
    rfl
  · rw [h12,hcrc']
    rfl
  · rw [hflags,hkeys,hplen,hcrc']
    rfl

theorem v2LoadNode_page (hf : ctx.Fits) (hn : NodeOk ctx n) (ho : o ≤ int64Max) :
    v2LoadNode ctx (writeAt f o (pageBytes ctx n)) o = some n :=
  v2LoadNode_eq_some.2 ⟨_,indexV2ReadNode_page hf hn ho,decodeNode_diskNode hn⟩

/-! ## Writing a page and reading it back -/

theorem pageSize_bounds {keylen : ℕ} (h : keylen ≤ 32) :
    120+maxKeys*(keylen+2+8) ≤ indexV2PageSize keylen ∧ indexV2PageSize keylen < 2 ^ 16 ∧
      indexV2PageSize keylen % 64 = 0 := by
  simp only [indexV2PageSize,maxKeys]
  rw [Nat.mod_eq_of_lt (by omega)]
  omega

theorem fits_of_readPageSize {header : Bytes} (hk : ctx.keylen ≤ 32)
    (h : indexV2ReadPageSize header ctx.keylen = some ctx.pageSize) : ctx.Fits := by
  have hb := pageSize_bounds hk
  simp only [indexV2ReadPageSize,Option.bind_eq_bind,Option.bind_eq_some_iff,guard_eq_some,exists_const,Option.pure_def,
    Option.some.injEq,not_or,not_lt] at h
  obtain ⟨hd,-,⟨hle,-⟩,heq⟩ := h
  rw [heq] at hle
  refine ⟨hb.1.trans hle,?_⟩
  have hlt := getBE_lt (slice hd 20 2)
  have hpow : 256 ^ (slice hd 20 2).length ≤ 256 ^ 2 := Nat.pow_le_pow_right (by decide) (by rw [length_slice]; exact min_le_left _ _)
  rw [← heq]
  split
  · decide
  · exact lt_of_lt_of_le hlt hpow

/-- The page that the node goes to. -/
def chosenPage (ctx : Context) (offset : ℕ) (s : IndexState) : ℕ :=
  if ctx.inPlace ∧ offset≠0 then offset else s.freePages.getLast?.getD s.nextOffset

theorem allocatePage_chosen (ctx : Context) (offset : ℕ) (s : IndexState) :
    ∃ s',allocatePage ctx offset s = (.ok (chosenPage ctx offset s),s') ∧ s'.bytes = s.bytes := by
  unfold allocatePage chosenPage
  split
  · exact ⟨s,rfl,rfl⟩
  · cases hlast : s.freePages.getLast? with
    | none => exact ⟨{ s with nextOffset := s.nextOffset+ctx.pageSize },rfl,rfl⟩
    | some page => exact ⟨{ s with freePages := s.freePages.dropLast },rfl,rfl⟩

/-- Every node of the format is written to the page chosen for it, with all other bytes as they were, and read back
with the checksum that was returned. -/
theorem node_round_trip {header : Bytes} {s : IndexState} {offset : ℕ} (hk : ctx.keylen ≤ 32)
    (hp : indexV2ReadPageSize header ctx.keylen = some ctx.pageSize) (hn : NodeOk ctx n)
    (hio : chosenPage ctx offset s+ctx.pageSize ≤ int64Max) :
    ∃ page crc s',v2WriteNode ctx n offset s = (.ok (page,crc),s') ∧ page = chosenPage ctx offset s ∧
      s'.bytes.length = max s.bytes.length (page+ctx.pageSize) ∧
      (∀ i,i < page ∨ page+ctx.pageSize ≤ i → s'.bytes.getD i 0 = s.bytes.getD i 0) ∧
      v2LoadNode ctx s'.bytes page = some n ∧ (indexV2ReadNode s'.bytes page).map DiskNode.crc = some crc := by
  have hf := fits_of_readPageSize hk hp
  have hle := le_trans (payloadLength_le ctx.entrySize n.leaf hn.count_le) hf.room
  have hlen := length_pageBytes hf hn
  have hne : pageBytes ctx n≠[] := by
    intro hnil
    rw [hnil,List.length_nil] at hlen
    omega
  obtain ⟨s1,halloc,hbytes⟩ := allocatePage_chosen ctx offset s
  set page := chosenPage ctx offset s
  refine ⟨page,nodeCrc ctx n,{ s1 with bytes := writeAt s1.bytes page (pageBytes ctx n),writes := s1.writes++[(page,pageBytes ctx n)] },
    ?_,rfl,?_,?_,v2LoadNode_page hf hn (by omega),?_⟩
  · have hwrite : page+(pageBytes ctx n).length ≤ int64Max := by rwa [hlen]
    rw [v2WriteNode,run_bind_ok (run_ensure (by simpa using hn.count_le) _ _),run_bind_ok (run_ensure (by simpa using hle) _ _),
      run_bind_ok halloc,run_bind_ok (by rw [writeFullAt,if_pos hwrite])]
    rfl
  · rw [length_writeAt _ _ _ hne,hlen,hbytes]
  · intro i hi
    rw [List.getD_eq_getElem?_getD,List.getD_eq_getElem?_getD,getElem?_writeAt _ _ _ hne,hlen,if_neg (by omega),hbytes]
    split
    · rfl
    · rename_i hout
      rw [List.getElem?_eq_none (by omega)]
      split <;> rfl
  · rw [indexV2ReadNode_page hf hn (by omega)]
    rfl

/-- A node with two children, written to a free page in front of the end of the file. -/
theorem node_round_trip_free_page : ∃ s',v2LoadNode ⟨2,1,320,false⟩ s'.bytes 640 = some ⟨false,[List.replicate 12 7],[960,2 ^ 64 - 1]⟩ ∧
    s'.bytes.length = 960 ∧ ∃ crc,v2WriteNode ⟨2,1,320,false⟩ ⟨false,[List.replicate 12 7],[960,2 ^ 64 - 1]⟩ 0
      ⟨[],[],1280,[640]⟩ = (.ok (640,crc),s') := by
  have hok : NodeOk ⟨2,1,320,false⟩ ⟨false,[List.replicate 12 7],[960,2 ^ 64 - 1]⟩ :=
    ⟨by decide,by decide,by decide,by decide,by decide⟩
  obtain ⟨page,crc,s',hwrite,rfl,hlen,-,hload,-⟩ := @node_round_trip ⟨2,1,320,false⟩ _ (headerBytes 2 1 0 320 0)
    ⟨[],[],1280,[640]⟩ 0 (by decide) (by decide +kernel) hok (by decide)
  exact ⟨s',hload,hlen,crc,hwrite⟩

end Dataman.IndexFile
