import ContainerHackathon.PyStager.Reproducible
import ContainerHackathon.PyStager.Staging
import ContainerHackathon.PyStager.Paths
import ContainerHackathon.PyStager.Protocol.Status
import ContainerHackathon.PyStager.Protocol.Agreement
import ContainerHackathon.PyStager.Protocol.Notices
import ContainerHackathon.Training.SequenceGenerator
import ContainerHackathon.Training.PredNet.Loss
import ContainerHackathon.EcEarth.WholeYears
import ContainerHackathon.EcEarth.Recovery
import ContainerHackathon.Horovod.CacheSync
import ContainerHackathon.Horovod.Service
