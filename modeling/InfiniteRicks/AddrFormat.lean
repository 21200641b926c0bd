import InfiniteRicks.AddrFile
import InfiniteRicks.WalletRecordSpec

/-!
# The format of the address file

What has been read has as many entries as it says, with nothing in the fields that are not stored. A file that
is written to disk is read back as it is `stored`.
-/

namespace InfiniteRicks

open Library Library.Codec CDataStream

/-! ## What is read -/

namespace CAddrInfo

/-- The fields that are not stored are as `Init` leaves them. -/
structure Fresh (info : CAddrInfo) : Prop where
  nLastTry : info.nLastTry = 0
  nRefCount : info.nRefCount = 0
  fInTried : info.fInTried = false

theorem unserialize_fresh {nType : UInt32} {nVersion : Int32} {s after : CDataStream} {info : CAddrInfo}
    (done : unserialize nType nVersion s = some (info, after)) : info.Fresh := by
  obtain ⟨⟨addr, s1⟩, address, done⟩ := Option.bind_eq_some_iff.mp done
  obtain ⟨⟨source, s2⟩, -, done⟩ := Option.bind_eq_some_iff.mp done
  obtain ⟨⟨nLastSuccess, s3⟩, -, done⟩ := Option.bind_eq_some_iff.mp done
  obtain ⟨⟨nAttempts, s4⟩, -, done⟩ := Option.bind_eq_some_iff.mp done
  cases done
  obtain ⟨⟨version, s5⟩, -, address⟩ := Option.bind_eq_some_iff.mp address
  obtain ⟨⟨nTime, s6⟩, -, address⟩ := Option.bind_eq_some_iff.mp address
  obtain ⟨⟨nServices, s7⟩, -, address⟩ := Option.bind_eq_some_iff.mp address
  obtain ⟨⟨service, s8⟩, -, address⟩ := Option.bind_eq_some_iff.mp address
  cases address
  exact ⟨rfl, rfl, rfl⟩

end CAddrInfo

namespace AddrFile

/-- What is so of every file that has been read. -/
structure WellFormed (file : AddrFile) : Prop where
  new : file.new.length = passes file.nNew ∧ ∀ info ∈ file.new, info.Fresh
  tried : file.tried.length = passes file.nTried ∧ ∀ info ∈ file.tried, info.Fresh
  buckets : file.buckets.length = passes file.nUBuckets

theorem unserialize_wellFormed {nType : UInt32} {s after : CDataStream} {file : AddrFile}
    (done : unserialize nType s = some (file, after)) : file.WellFormed := by
  obtain ⟨⟨nVersion, s1⟩, -, done⟩ := Option.bind_eq_some_iff.mp done
  obtain ⟨⟨nKey, s2⟩, -, done⟩ := Option.bind_eq_some_iff.mp done
  obtain ⟨⟨nNew, s3⟩, -, done⟩ := Option.bind_eq_some_iff.mp done
  obtain ⟨⟨nTried, s4⟩, -, done⟩ := Option.bind_eq_some_iff.mp done
  obtain ⟨⟨nUBuckets, s5⟩, -, done⟩ := Option.bind_eq_some_iff.mp done
  obtain ⟨⟨new, s6⟩, news, done⟩ := Option.bind_eq_some_iff.mp done
  obtain ⟨⟨tried, s7⟩, trieds, done⟩ := Option.bind_eq_some_iff.mp done
  obtain ⟨⟨buckets, s8⟩, listed, done⟩ := Option.bind_eq_some_iff.mp done
  cases done
  exact ⟨repeated_post (fun done => CAddrInfo.unserialize_fresh done) news,
    repeated_post (fun done => CAddrInfo.unserialize_fresh done) trieds,
    (@repeated_post _ _ _ (fun _ => True) (fun _ => trivial) _ _ _ _ listed).1⟩

end AddrFile

/-! ## Files that are written are read -/

theorem readUInt64_lawful : Lawful source (fun _ => True) writeUInt64 readUInt64 :=
  readInteger_lawful UInt64.toNat (by decide) (fun value => value.toNat_lt) (fun value => UInt64.ofNat_toNat)
    fun value fits => UInt64.toNat_ofNat_of_lt' fits

theorem CNetAddr.restores (addr : CNetAddr) : Restores source addr.serialize unserialize addr := by
  have bytes : Restores source addr.ip (read 16) addr.ip := (read_lawful (by decide)).restores addr.size
  have checked : Restores source [] (if size : addr.ip.length = 16 then pure ⟨addr.ip, size⟩ else failure) addr := by
    rw [dif_pos addr.size]
    exact .pure addr
  rw [serialize, ← List.append_nil addr.ip]
  exact bytes.bind checked

theorem CService.restores (service : CService) : Restores source service.serialize unserialize service := by
  have byte : ∀ value < 256, Restores source [UInt8.ofNat value] (readData 1) value := fun value small =>
    ((@readData_lawful 1 (by decide)).restores small : Restores source (littleEndianBytes 1 value) (readData 1) value)
  have small := service.port.toNat_lt
  have low : service.port.toUInt8 = UInt8.ofNat (service.port.toNat % 0x100) := by
    apply UInt8.toNat_inj.mp
    simp
  have port : UInt16.ofNat (service.port.toNat / 0x100 * 0x100 + service.port.toNat % 0x100) = service.port := by
    rw [Nat.div_add_mod', UInt16.ofNat_toNat]
  have last := @Restores.map _ _ _ _ _ _ _
    (fun low => ({ service.toCNetAddr with port := UInt16.ofNat (service.port.toNat / 0x100 * 0x100 + low) } : CService))
    (byte (service.port.toNat % 0x100) (by omega))
  rw [port] at last
  rw [serialize, low]
  refine service.toCNetAddr.restores.bind ?_
  exact (byte (service.port.toNat / 0x100) (by omega)).bind last

section Disk

variable {nType : UInt32} (disk : nType &&& serDisk ≠ 0)
include disk

/-- What a file keeps of an address. -/
def CAddress.stored (addr : CAddress) : CAddress := { addr with nLastTry := 0 }

theorem CAddress.restores (nVersion : Int32) (addr : CAddress) :
    Restores source (addr.serialize nType nVersion) (unserialize nType nVersion) addr.stored := by
  have version : Restores source (writeInt32 nVersion) (readVersion nType nVersion) nVersion := by
    rw [readVersion, if_pos disk]
    exact readInt32_lawful.restores trivial
  have timed : timed nType nVersion = true := by
    rw [CAddress.timed, decide_eq_true disk, Bool.true_or]
  have time : Restores source (writeUInt32 addr.nTime) (readTime nType nVersion) addr.nTime := by
    rw [readTime, if_pos timed]
    exact readUInt32_lawful.restores trivial
  rw [serialize, if_pos disk, if_pos timed]
  refine version.bind (time.bind ((readUInt64_lawful.restores trivial).bind ?_))
  exact addr.toCService.restores.map

/-- What a file keeps of an entry. -/
def CAddrInfo.stored (info : CAddrInfo) : CAddrInfo :=
  { info with nLastTry := 0, nRefCount := 0, fInTried := false, nRandomPos := -1 }

theorem CAddrInfo.restores (nVersion : Int32) (info : CAddrInfo) :
    Restores CDataStream.source (info.serialize nType nVersion) (unserialize nType nVersion) info.stored := by
  refine (CAddress.restores disk nVersion info.toCAddress).bind ?_
  refine info.source.restores.bind ((readInt64_lawful.restores trivial).bind ?_)
  exact (readInt32_lawful.restores trivial).map

namespace AddrFile

omit disk in
theorem readBucket_restores {bucket : List Int32} (small : bucket.length < 2 ^ 31) :
    Restores source (writeBucket bucket) readBucket bucket := by
  have length : passes (Int32.ofNat bucket.length) = bucket.length := by
    rw [passes, Int32.toInt_ofNat_of_lt small, Int.toNat_natCast]
  refine (readInt32_lawful.restores trivial).bind ?_
  rw [length]
  have each := @Restores.repeated _ _ _ source readInt32 writeInt32 id bucket fun value _ => readInt32_lawful.restores trivial
  rwa [List.map_id] at each

/-- The file as it is read back. -/
def stored (file : AddrFile) : AddrFile :=
  { file with new := file.new.map CAddrInfo.stored, tried := file.tried.map CAddrInfo.stored }

/-- The counts are those of the lists, and the sizes can be written. -/
structure Fits (file : AddrFile) : Prop where
  nKey : file.nKey.length ≤ maxSize
  new : file.new.length = passes file.nNew
  tried : file.tried.length = passes file.nTried
  buckets : file.buckets.length = passes file.nUBuckets
  each : ∀ bucket ∈ file.buckets, bucket.length < 2 ^ 31

theorem restores {file : AddrFile} (fits : file.Fits) :
    Restores source (file.serialize nType) (unserialize nType) file.stored := by
  have infos : ∀ list : List CAddrInfo, Restores source (list.flatMap (CAddrInfo.serialize nType (version file.nVersion)))
      (Codec.repeated (CAddrInfo.unserialize nType (version file.nVersion)) list.length) (list.map CAddrInfo.stored) :=
    fun list => .repeated fun info _ => CAddrInfo.restores disk _ info
  have buckets : Restores source (file.buckets.flatMap writeBucket) (Codec.repeated readBucket file.buckets.length) file.buckets := by
    have each := @Restores.repeated _ _ _ source readBucket writeBucket id file.buckets fun bucket member =>
      readBucket_restores (fits.each bucket member)
    rwa [List.map_id] at each
  have news := infos file.new
  have trieds := infos file.tried
  rw [fits.new] at news
  rw [fits.tried] at trieds
  rw [fits.buckets] at buckets
  refine (readChar_lawful.restores trivial).bind ?_
  refine (readBytes_lawful.restores fits.nKey).bind ?_
  refine (readInt32_lawful.restores trivial).bind ?_
  refine (readInt32_lawful.restores trivial).bind ?_
  refine (readInt32_lawful.restores trivial).bind ?_
  exact news.bind (trieds.bind buckets.map)

/-- A written file of less than 4 GiB is read. -/
theorem read_written {file : AddrFile} (fits : file.Fits) (small : (file.serialize nType).length < 2 ^ 32) :
    ∃ after, unserialize nType (ofBytes (file.serialize nType)) = some (file.stored, after) := by
  obtain ⟨after, done, -, -⟩ := @restores nType disk file fits (ofBytes (file.serialize nType)) []
    (List.append_nil _).symm (by
      simp only [source, ofBytes, UInt32.toNat_zero]
      omega)
  exact ⟨after, done⟩

end AddrFile

end Disk

end InfiniteRicks
