import Xetcas.Lib.Table

namespace Xetcas
open Lib

abbrev Bytes := List UInt8

def PREFIX_DEFAULT : String := "default"
def HEADER_XET_CAS_URL : String := "X-Xet-Cas-Url"
def HEADER_XET_ACCESS_TOKEN : String := "X-Xet-Access-Token"
def HEADER_XET_TOKEN_EXPIRATION : String := "X-Xet-Token-Expiration"
def HEADER_XET_SESSION_ID : String := "X-Xet-Session-Id"
def TRANSFER_XET : String := "xet"
def TRANSFER_BASIC : String := "basic"
def HASH_ALGO_SHA256 : String := "sha256"
def MAX_CHUNKS_PER_XORB : Nat := 8192
def MAX_XORB_UNPACKED_BYTES : Nat := 64 * 1024 * 1024
def HASH_BYTES : Nat := 32
def HASH_HEX_LEN : Nat := 2 * HASH_BYTES

-- storage.proto

structure XorbRecord where
  xorbHash : String
  numChunks : UInt32
  framesLength : UInt64
  unpackedLength : UInt64
  chunkBoundaryOffsets : List UInt32
  unpackedChunkOffsets : List UInt32
  chunkHashes : Bytes
  createdAt : UInt64
  deriving DecidableEq, Repr

structure FileTermRecord where
  xorbHash : String
  chunkIndexStart : UInt32
  chunkIndexEnd : UInt32
  unpackedSegmentBytes : UInt32
  deriving DecidableEq, Repr

structure FileRecord where
  fileHash : String
  fileLength : UInt64
  sha256 : String
  terms : List FileTermRecord
  verificationRangeHashes : Bytes
  createdAt : UInt64
  deriving DecidableEq, Repr

-- transfer.proto

/-- Chunk indexes, end exclusive. -/
structure IndexRange where
  start : UInt32
  stop : UInt32
  deriving DecidableEq, Repr

/-- Byte positions, end inclusive. -/
structure ByteRange where
  start : UInt64
  stop : UInt64
  deriving DecidableEq, Repr

structure QueryReconstructionRequest where
  fileId : String
  range : Option ByteRange

structure CasReconstructionTerm where
  hash : String
  range : Option IndexRange
  unpackedLength : UInt32
  deriving DecidableEq, Repr

structure CasReconstructionFetchInfo where
  range : Option IndexRange
  url : String
  urlRange : Option ByteRange
  deriving DecidableEq, Repr

structure FetchInfoList where
  entries : List CasReconstructionFetchInfo
  deriving DecidableEq, Repr

structure QueryReconstructionResponse where
  offsetIntoFirstRange : UInt64
  terms : List CasReconstructionTerm
  fetchInfo : Table String FetchInfoList
  deriving DecidableEq

structure XorbRangeDescriptor where
  chunks : Option IndexRange
  bytes : Option ByteRange
  deriving DecidableEq, Repr

structure XorbMultiRangeFetch where
  url : String
  ranges : List XorbRangeDescriptor
  deriving DecidableEq, Repr

structure XorbFetchList where
  entries : List XorbMultiRangeFetch
  deriving DecidableEq, Repr

structure QueryReconstructionResponseV2 where
  offsetIntoFirstRange : UInt64
  terms : List CasReconstructionTerm
  xorbs : Table String XorbFetchList
  deriving DecidableEq

structure ChunkDedupQuery where
  pathPrefix : String
  hash : String

structure UploadXorbKey where
  pathPrefix : String
  hash : String

structure UploadXorbResponse where
  wasInserted : Bool
  deriving DecidableEq, Repr

structure UploadShardResponse where
  result : UInt32
  deriving DecidableEq, Repr

-- bridge.proto

structure LfsRef where
  name : String
  deriving DecidableEq, Repr

structure LfsObjectSpec where
  oid : String
  size : UInt64

structure LfsBatchRequest where
  operation : String
  transfers : List String
  ref : Option LfsRef
  objects : List LfsObjectSpec
  hashAlgo : String

structure LfsAction where
  href : String
  header : Table String String
  expiresIn : UInt64

structure LfsObjectError where
  code : UInt32
  message : String
  deriving DecidableEq, Repr

structure LfsBatchObject where
  oid : String
  size : UInt64
  authenticated : Bool
  actions : Table String LfsAction
  error : Option LfsObjectError

structure LfsBatchResponse where
  transfer : String
  objects : List LfsBatchObject
  hashAlgo : String

structure CasTokenInfo where
  casUrl : String
  exp : UInt64
  accessToken : String
  deriving DecidableEq, Repr

end Xetcas
